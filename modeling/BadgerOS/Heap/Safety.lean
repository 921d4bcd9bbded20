import BadgerOS.Lib.FreeList
import BadgerOS.Heap.Slabs

/-!
# Safety of the slab heap

The free slabs of a block, linked from its head, and its live slabs are together
the slabs of the block. While an operation works on a block, the block is in hand:
it is taken out of the lists, changed and put back where its count says.
-/

namespace BadgerOS.Heap

open Fallible LinkedMemory SlabPool Function List Nat
open scoped List

/-! ### Sizes and addresses -/

/-- What is used of a slab size. -/
structure IsSlabSize (s : Nat) : Prop where
  pow : isPowerOfTwo s = true
  min : 8 ≤ s
  header : headerSize ≤ overhead s * s
  room : overhead s * s < blockSize
  whole : overhead s * s + capacity s * s = blockSize
  more : overhead s ≤ blockSize / s
  two : 2 ≤ capacity s

theorem isSlabSize {bucket : Nat} (h : bucket < sizes) :
    IsSlabSize (smallest * sizeMul ^ bucket) := by
  have : bucket < 9 := h
  interval_cases bucket <;> constructor <;> decide +kernel

theorem blockOf_eq {ptr : Nat} (h : ptr < usizeSize) : blockOf ptr = ptr / blockSize * blockSize :=
  and_usizeNot h (by decide : 14 < 64)

variable {s : Nat} {p : SlabPool} {live : List Nat} {block ptr : Nat}

theorem blockOf_of_inside (h : Aligned block) (low : block ≤ ptr)
    (high : ptr < block + blockSize) : blockOf ptr = block := by
  have := h.fits
  rw [blockOf_eq (by omega)]
  obtain ⟨i, rfl⟩ := h.aligned
  have div : ptr / blockSize = i := by
    apply Nat.div_eq_of_lt_le
    · rwa [Nat.mul_comm]
    · rwa [succ_mul, Nat.mul_comm]
  rw [div, Nat.mul_comm]

theorem mem_slabs : ptr ∈ slabs s block ↔
    ∃ i < capacity s, ptr = block + overhead s * s + i * s := by
  simp only [slabs, mem_map, mem_range]
  constructor
  all_goals
    rintro ⟨i, hi, rfl⟩
    exact ⟨i, hi, rfl⟩

theorem mul_add_le {i j : Nat} (lt : i < j) : i * s + s ≤ j * s := by
  rw [← succ_mul]
  exact Nat.mul_le_mul_right s lt

theorem slabs_length : (slabs s block).length = capacity s := by simp [slabs]

section Sizes

variable (hs : IsSlabSize s)
include hs

/-- A slab lies between the header and the end of its block. -/
theorem slab_inside (h : ptr ∈ slabs s block) : block + headerSize ≤ ptr ∧
    ptr + s ≤ block + blockSize := by
  obtain ⟨i, hi, rfl⟩ := mem_slabs.mp h
  have header := hs.header
  have whole := hs.whole
  have := mul_add_le (s := s) hi
  omega

theorem blockOf_slab (ha : Aligned block) (h : ptr ∈ slabs s block) : blockOf ptr = block := by
  have inside := slab_inside hs h
  have := hs.min
  apply blockOf_of_inside ha
  · omega
  · omega

theorem slab_pos (ha : Aligned block) (h : ptr ∈ slabs s block) : ptr ≠ 0 := by
  have := slab_inside hs h
  have := ha.pos
  omega

theorem slabs_nodup : (slabs s block).Nodup := by
  apply nodup_range.map
  intro i j same
  have := hs.min
  have same : i * s = j * s := by simpa using same
  exact eq_of_mul_eq_mul_right (by omega) same

/-- Two slabs do not overlap. -/
theorem slabs_apart {block' ptr' : Nat} (ha : Aligned block) (ha' : Aligned block')
    (h : ptr ∈ slabs s block) (h' : ptr' ∈ slabs s block') (differ : ptr ≠ ptr') :
    ptr + s ≤ ptr' ∨ ptr' + s ≤ ptr := by
  have inside := slab_inside hs h
  have inside' := slab_inside hs h'
  by_cases same : block = block'
  · subst same
    obtain ⟨i, -, rfl⟩ := mem_slabs.mp h
    obtain ⟨j, -, rfl⟩ := mem_slabs.mp h'
    rcases Nat.lt_trichotomy i j with lt | rfl | lt
    · have := mul_add_le (s := s) lt
      omega
    · exact absurd rfl differ
    · have := mul_add_le (s := s) lt
      omega
  · obtain ⟨i, rfl⟩ := ha.aligned
    obtain ⟨j, rfl⟩ := ha'.aligned
    rw [Nat.mul_comm blockSize i, Nat.mul_comm blockSize j] at *
    rcases Nat.lt_trichotomy i j with lt | rfl | lt
    · have := mul_add_le (s := blockSize) lt
      omega
    · exact absurd rfl same
    · have := mul_add_le (s := blockSize) lt
      omega

end Sizes

/-! ### One block -/

/-- Where the last link of a block points: past its end. -/
def stop (block : Nat) : Nat := (block + blockSize) % usizeSize

/-- The links of a block and its counts agree with its live slabs. -/
structure BlockOk (s : Nat) (header : Header) (links : Nat → Nat) (live : List Nat)
    (block : Nat) : Prop where
  capacity : header.capacity = capacity s
  occupancy : header.occupancy = (liveIn live block).length
  free : ∃ free, Threaded links (stop block) header.listHead free ∧
    (free ++ liveIn live block).Perm (slabs s block)

theorem mem_liveIn : ptr ∈ liveIn live block ↔ ptr ∈ live ∧ blockOf ptr = block := by
  simp [liveIn]

theorem liveIn_cons_self (h : blockOf ptr = block) :
    liveIn (ptr :: live) block = ptr :: liveIn live block := by
  simp [liveIn, h]

theorem liveIn_cons_of_ne (h : blockOf ptr ≠ block) :
    liveIn (ptr :: live) block = liveIn live block := by
  simp [liveIn, h]

theorem liveIn_erase : liveIn (live.erase ptr) block = (liveIn live block).erase ptr :=
  erase_filter.symm

theorem liveIn_erase_of_ne (h : blockOf ptr ≠ block) :
    liveIn (live.erase ptr) block = liveIn live block := by
  rw [liveIn_erase, erase_of_not_mem]
  intro mem
  exact h (mem_liveIn.mp mem).2

section Blocks

variable {header header' : Header} {links links' : Nat → Nat} {live' : List Nat}

/-- The loop of `init` threads the slabs and leaves other links alone. -/
theorem linkSlabs_spec (hs : 0 < s) (n : Nat) (links : Nat → Nat) (ptr : Nat)
    (fits : ptr + n * s ≤ usizeSize) :
    Threaded (linkSlabs s n ptr links) ((ptr + n * s) % usizeSize) (ptr % usizeSize)
      ((List.range n).map fun i => ptr + i * s) ∧
    ∀ other, (∀ i < n, other ≠ ptr + i * s) →
      linkSlabs s n ptr links other = links other := by
  induction n generalizing links ptr with
  | zero =>
    constructor
    · simp [Threaded]
    · exact fun _ _ => rfl
  | succ n ih =>
    have split : ptr + (n + 1) * s = ptr + s + n * s := by ring
    have lt : ptr < usizeSize := by
      omega
    have map : (List.range (n + 1)).map (fun i => ptr + i * s) =
        ptr :: (List.range n).map fun i => ptr + s + i * s := by
      rw [range_succ_eq_map, map_cons, map_map, Nat.zero_mul, Nat.add_zero]
      congr 1
      apply map_congr_left
      simp only [Function.comp, succ_mul]
      omega
    rw [map, split, mod_eq_of_lt lt]
    rcases n.eq_zero_or_pos with rfl | pos
    · -- the last link may wrap around, and no link is read there
      simp only [linkSlabs, wrappingAdd]
      constructor
      · simp [Threaded]
      · intro other apart
        exact update_of_ne (by simpa using apart 0 (by omega)) _ _
    · have next : wrappingAdd ptr s = ptr + s := by
        apply wrappingAdd_of_lt
        have := Nat.le_mul_of_pos_left s pos
        omega
      have rest := ih (update links ptr (ptr + s)) (ptr + s) (by omega)
      rw [mod_eq_of_lt
        (by have := Nat.le_mul_of_pos_left s pos; omega : ptr + s < usizeSize)] at rest
      simp only [linkSlabs, next]
      refine ⟨⟨rfl, ?_⟩, ?_⟩
      · rw [rest.2 ptr (by omega), update_self]
        exact rest.1
      · intro other apart
        rw [rest.2 other]
        · exact update_of_ne (by simpa using apart 0 (by omega)) _ _
        · intro i hi
          have := apart (i + 1) (by omega)
          rw [succ_mul] at this
          omega

theorem BlockOk.live_slab (h : BlockOk s header links live block)
    (mem : ptr ∈ liveIn live block) : ptr ∈ slabs s block := by
  obtain ⟨free, -, perm⟩ := h.free
  exact perm.subset (mem_append_right _ mem)

/-- A block with fewer live slabs than slabs has a free one in front. -/
theorem BlockOk.head (h : BlockOk s header links live block)
    (less : (liveIn live block).length < Heap.capacity s) :
    ∃ free, Threaded links (stop block) (links header.listHead) free ∧
      (header.listHead :: (free ++ liveIn live block)).Perm (slabs s block) := by
  obtain ⟨free, threaded, perm⟩ := h.free
  cases free with
  | nil =>
    have := perm.length_eq
    rw [nil_append, slabs_length] at this
    omega
  | cons x free =>
    obtain ⟨rfl, rest⟩ := threaded
    exact ⟨free, rest, perm⟩

variable (hs : IsSlabSize s)
include hs

section

variable (h : BlockOk s header links live block)
include h

/-- A block does not see changes of its live slabs or of other blocks. -/
theorem BlockOk.frame (ha : Aligned block) (capacity : header'.capacity = header.capacity)
    (occupancy : header'.occupancy = header.occupancy)
    (listHead : header'.listHead = header.listHead)
    (same : ∀ ptr, blockOf ptr = block → ptr ∉ liveIn live block → links' ptr = links ptr)
    (lives : liveIn live' block = liveIn live block) : BlockOk s header' links' live' block where
  capacity := capacity.trans h.capacity
  occupancy := by rw [occupancy, h.occupancy, lives]
  free := by
    obtain ⟨free, threaded, perm⟩ := h.free
    exists free
    rw [listHead, lives]
    constructor
    · apply threaded.frame
      intro ptr hp
      apply same
      · exact blockOf_slab hs ha (perm.subset (mem_append_left _ hp))
      · have nodup := perm.nodup_iff.mpr (slabs_nodup hs)
        exact fun hl => (nodup_append.mp nodup).2.2 _ hp _ hl rfl
    · exact perm

theorem BlockOk.live_nodup : (liveIn live block).Nodup := by
  obtain ⟨free, -, perm⟩ := h.free
  exact (nodup_append.mp (perm.nodup_iff.mpr (slabs_nodup hs))).2.1

/-- The first free slab is handed out. -/
theorem BlockOk.alloc (ha : Aligned block) (less : (liveIn live block).length < Heap.capacity s) :
    header.listHead ∈ slabs s block ∧ header.listHead ∉ liveIn live block ∧
    BlockOk s { header with listHead := links header.listHead, occupancy := header.occupancy + 1 }
      links (header.listHead :: live) block := by
  obtain ⟨free, threaded, perm⟩ := h.head less
  have slab := perm.subset mem_cons_self
  have nodup := perm.nodup_iff.mpr (slabs_nodup hs)
  refine ⟨slab, ?_, ?_⟩
  · intro mem
    exact (nodup_cons.mp nodup).1 (mem_append_right _ mem)
  · have lives : liveIn (header.listHead :: live) block = header.listHead :: liveIn live block :=
      liveIn_cons_self (blockOf_slab hs ha slab)
    constructor
    case capacity => exact h.capacity
    case occupancy => rw [lives, length_cons, h.occupancy]
    case free =>
      refine ⟨free, threaded, ?_⟩
      rw [lives]
      exact perm_middle.trans perm

/-- A live slab becomes the first free one. -/
theorem BlockOk.release (mem : ptr ∈ liveIn live block) : 0 < header.occupancy ∧
    BlockOk s { header with occupancy := header.occupancy - 1, listHead := ptr }
      (update links ptr header.listHead) (live.erase ptr) block := by
  obtain ⟨free, threaded, perm⟩ := h.free
  have nodup := perm.nodup_iff.mpr (slabs_nodup hs)
  have new : ptr ∉ free := fun hp => (nodup_append.mp nodup).2.2 _ hp _ mem rfl
  have pos := length_pos_of_mem mem
  constructor
  · rw [h.occupancy]
    exact pos
  · constructor
    case capacity => exact h.capacity
    case occupancy => simp [liveIn_erase, length_erase_of_mem mem, h.occupancy]
    case free =>
      refine ⟨ptr :: free, threaded.push new, ?_⟩
      rw [liveIn_erase]
      calc ptr :: free ++ (liveIn live block).erase ptr
        _ ~ free ++ ptr :: (liveIn live block).erase ptr := perm_middle.symm
        _ ~ free ++ liveIn live block := (perm_cons_erase mem).symm.append_left free
        _ ~ slabs s block := perm

end

end Blocks

/-! ### The blocks of a pool -/

/-- The count that a block in a list has. -/
def Fits (s : Nat) : Fullness → Nat → Prop
  | .part, n => 0 < n ∧ n < capacity s
  | .full, n => n = capacity s

/-- The blocks of the pool, with one that may be in hand. -/
def Owns (p : SlabPool) (hand : Option Nat) (block : Nat) : Prop :=
  p.Has block ∨ hand = some block

structure Inv (s : Nat) (p : SlabPool) (live : List Nat) (hand : Option Nat) : Prop where
  aligned {block : Nat} (owns : Owns p hand block) : Aligned block
  blocks {block : Nat} (owns : Owns p hand block) : BlockOk s (p.headers block) p.links live block
  owned {ptr : Nat} (lives : ptr ∈ live) : Owns p hand (blockOf ptr)
  nodup (list : Fullness) : (p.lists list).Nodup
  fits {list : Fullness} {block : Nat} (mem : block ∈ p.lists list) :
    Fits s list (liveIn live block).length ∧ (p.headers block).inList = true
  empty {block : Nat} (kept : p.empty = some block) : liveIn live block = [] ∧
    (p.headers block).inList = false
  hand {block : Nat} (held : hand = some block) : ¬ p.Has block

variable {list : Fullness} {rest live' : List Nat} {header : Header} {links : Nat → Nat}
  {memory : Option Nat}

section Pools

variable {hand : Option Nat}

theorem Inv.live_slab (h : Inv s p live hand) (lives : ptr ∈ live) :
    ptr ∈ slabs s (blockOf ptr) :=
  (h.blocks (h.owned lives)).live_slab (mem_liveIn.mpr ⟨lives, rfl⟩)

section

variable (h : Inv s p live (some block))
include h

/-- A block is put into a list. -/
theorem Inv.put (list : Fullness) {all : List Nat} (fits : Fits s list (liveIn live block).length)
    (inList : (p.headers block).inList = true) (perm : all.Perm (block :: p.lists list)) :
    Inv s { p with lists := update p.lists list all } live none := by
  have mem : ∀ {list' b}, b ∈ update p.lists list all list' ↔ b ∈ p.lists list' ∨
      (list' = list ∧ b = block) := by
    intro list' b
    by_cases hl : list' = list
    · grind
    · simp [hl]
  have owns : ∀ {b}, Owns { p with lists := update p.lists list all } none b ↔
      Owns p (some block) b := by
    simp only [Owns, Has, mem]
    grind
  constructor
  case aligned => exact fun o => h.aligned (owns.mp o)
  case blocks => exact fun o => h.blocks (owns.mp o)
  case owned => exact fun lives => owns.mpr (h.owned lives)
  case nodup =>
    intro list'
    by_cases hl : list' = list
    · subst hl
      have new : block ∉ p.lists list' := fun hb => h.hand rfl (.inr ⟨list', hb⟩)
      simpa [perm.nodup_iff, new] using h.nodup list'
    · simpa [hl] using h.nodup list'
  case fits =>
    intro list' b hb
    rcases mem.mp hb with hb | ⟨rfl, rfl⟩
    · exact h.fits hb
    · exact ⟨fits, inList⟩
  case empty => exact h.empty
  case hand => nofun

/-- A block without live slabs is kept as the empty one. -/
theorem Inv.put_empty (room : p.empty = none) (unused : liveIn live block = [])
    (inList : (p.headers block).inList = false) :
    Inv s { p with empty := some block } live none := by
  have owns : ∀ {b}, Owns { p with empty := some block } none b ↔ Owns p (some block) b := by
    simp only [Owns, Has, room]
    grind
  constructor
  case aligned => exact fun o => h.aligned (owns.mp o)
  case blocks => exact fun o => h.blocks (owns.mp o)
  case owned => exact fun lives => owns.mpr (h.owned lives)
  case nodup => exact h.nodup
  case fits => exact h.fits
  case empty =>
    rintro b ⟨⟩
    exact ⟨unused, inList⟩
  case hand => nofun

/-- A block without live slabs is given back. -/
theorem Inv.give_back (unused : liveIn live block = []) : Inv s p live none := by
  constructor
  case aligned => exact fun o => h.aligned (.inl (o.resolve_right nofun))
  case blocks => exact fun o => h.blocks (.inl (o.resolve_right nofun))
  case owned =>
    intro ptr lives
    rcases h.owned lives with has | held
    · exact .inl has
    · have mem := mem_liveIn.mpr ⟨lives, (Option.some.inj held).symm⟩
      rw [unused] at mem
      cases mem
  case nodup => exact h.nodup
  case fits => exact h.fits
  case empty => exact h.empty
  case hand => nofun

end

variable (hs : IsSlabSize s)
include hs

theorem not_fits_zero : ¬ Fits s list 0 := by
  have two := hs.two
  cases list <;> simp [Fits]
  omega

section

variable (h : Inv s p live none)
include h

theorem fits_iff (has : p.Has block) : block ∈ p.lists list ↔
    Fits s list (liveIn live block).length := by
  constructor
  · exact fun mem => (h.fits mem).1
  · intro fits
    rcases has with kept | ⟨list', mem⟩
    · rw [(h.empty kept).1] at fits
      exact absurd fits (not_fits_zero hs)
    · have fits' := (h.fits mem).1
      cases list <;> cases list' <;> simp only [Fits] at fits fits' <;> first | exact mem | omega

theorem Inv.tidy : Tidy s p live where
  occupancy has := (h.blocks (.inl has)).occupancy
  part_iff has := fits_iff hs h has
  full_iff has := fits_iff hs h has
  empty_iff {block} has := by
    constructor
    · exact fun kept => (h.empty kept).1
    · intro unused
      rcases has with kept | ⟨list, mem⟩
      · exact kept
      · have fits := (h.fits mem).1
        rw [unused] at fits
        exact absurd fits (not_fits_zero hs)

/-- A block is taken from a list. -/
theorem Inv.take (perm : (p.lists list).Perm (block :: rest)) :
    Inv s { p with lists := update p.lists list rest } live (some block) := by
  have nodup := perm.nodup_iff.mp (h.nodup list)
  have mem := perm.mem_iff.mpr mem_cons_self
  have sub : ∀ {list' b}, b ∈ update p.lists list rest list' → b ∈ p.lists list' := by
    intro list' b hb
    by_cases hl : list' = list
    · subst hl
      rw [update_self] at hb
      exact perm.mem_iff.mpr (mem_cons_of_mem _ hb)
    · rwa [update_of_ne hl] at hb
  have owns : ∀ {b}, Owns { p with lists := update p.lists list rest } (some block) b →
      p.Has b := by
    rintro b ((kept | ⟨list', hb⟩) | held)
    · exact .inl kept
    · exact .inr ⟨list', sub hb⟩
    · cases held
      exact .inr ⟨list, mem⟩
  constructor
  case aligned => exact fun o => h.aligned (.inl (owns o))
  case blocks => exact fun o => h.blocks (.inl (owns o))
  case owned =>
    intro ptr lives
    rcases h.owned lives with (kept | ⟨list', hb⟩) | held
    · exact .inl (.inl kept)
    · by_cases hl : list' = list
      · subst hl
        rcases mem_cons.mp (perm.mem_iff.mp hb) with same | hb
        · exact .inr (congrArg some same.symm)
        · exact .inl (.inr ⟨list', by simpa using hb⟩)
      · exact .inl (.inr ⟨list', by simpa [hl] using hb⟩)
    · cases held
  case nodup =>
    intro list'
    by_cases hl : list' = list
    · subst hl
      simpa using (nodup_cons.mp nodup).2
    · simpa [hl] using h.nodup list'
  case fits => exact fun hb => h.fits (sub hb)
  case empty => exact h.empty
  case hand =>
    rintro b ⟨⟩ (kept | ⟨list', hb⟩)
    · have fits := (h.fits mem).1
      rw [(h.empty kept).1] at fits
      exact absurd fits (not_fits_zero hs)
    · by_cases hl : list' = list
      · subst hl
        exact (nodup_cons.mp nodup).1 (by simpa using hb)
      · -- the counts of the two lists differ
        have fits := (h.fits mem).1
        have fits' := (h.fits (sub hb)).1
        cases list <;> cases list' <;> simp [Fits] at fits fits' hl <;> omega

theorem Inv.take_empty (kept : p.empty = some block) : Inv s { p with empty := none } live
    (some block) := by
  have owns : ∀ {b}, Owns { p with empty := none } (some block) b ↔ p.Has b := by
    simp only [Owns, Has, kept]
    grind
  constructor
  case aligned => exact fun o => h.aligned (.inl (owns.mp o))
  case blocks => exact fun o => h.blocks (.inl (owns.mp o))
  case owned => exact fun lives => owns.mpr ((h.owned lives).resolve_right nofun)
  case nodup => exact h.nodup
  case fits => exact h.fits
  case empty => nofun
  case hand =>
    rintro b ⟨⟩ (none | ⟨list, mem⟩)
    · cases none
    · have fits := (h.fits mem).1
      rw [(h.empty kept).1] at fits
      exact absurd fits (not_fits_zero hs)

end

section

variable (ok : BlockOk s header links live' block) (same : ∀ ptr, blockOf ptr ≠ block →
  links ptr = p.links ptr) (lives : ∀ b, b ≠ block → liveIn live' b = liveIn live b)
  (owned : ∀ ptr ∈ live', ptr ∈ live ∨ blockOf ptr = block)
include ok same lives owned

/-- The block in hand, or a new one, is changed. -/
theorem Inv.change (h : Inv s p live hand) (only : ∀ b, hand = some b → b = block)
    (absent : ¬ p.Has block) (ha : Aligned block) :
    Inv s { p with headers := update p.headers block header, links } live' (some block) := by
  have other : ∀ {b}, p.Has b → b ≠ block := by
    rintro b has rfl
    exact absent has
  constructor
  case aligned =>
    rintro b (has | held)
    · exact h.aligned (.inl has)
    · cases Option.some.inj held
      exact ha
  case blocks =>
    rintro b (has | held)
    · have hb := other has
      have ok := h.blocks (.inl has)
      dsimp only
      rw [update_of_ne hb]
      apply ok.frame hs (h.aligned (.inl has)) rfl rfl rfl _ (lives b hb)
      rintro ptr rfl _
      exact same ptr hb
    · cases Option.some.inj held
      simpa using ok
  case owned =>
    intro ptr hp
    by_cases here : blockOf ptr = block
    · exact .inr (congrArg some here.symm)
    · rcases h.owned ((owned ptr hp).resolve_right here) with has | held
      · exact .inl has
      · exact absurd (only _ held) here
  case nodup => exact h.nodup
  case fits =>
    intro list b mem
    have hb := other (.inr ⟨list, mem⟩)
    simpa [lives b hb, hb] using h.fits mem
  case empty =>
    intro b kept
    have hb := other (.inl kept)
    simpa [lives b hb, hb] using h.empty kept
  case hand =>
    rintro b ⟨⟩
    exact absent

theorem Inv.change_hand (h : Inv s p live (some block)) :
    Inv s { p with headers := update p.headers block header, links } live' (some block) :=
  h.change hs ok same lives owned (fun _ held => (Option.some.inj held).symm) (h.hand rfl)
    (h.aligned (.inr rfl))

end

/-- The node of the block in hand changes. -/
theorem Inv.flag (h : Inv s p live (some block)) (inList : Bool) :
    Inv s { p with headers := update p.headers block { p.headers block with inList } } live
      (some block) := by
  have ok := h.blocks (.inr rfl)
  exact h.change_hand hs ⟨ok.capacity, ok.occupancy, ok.free⟩ (fun _ _ => rfl) (fun _ _ => rfl)
    fun _ lives => .inl lives

/-- The owner of a live slab writes to it. -/
theorem Inv.store (h : Inv s p live hand) (lives : ptr ∈ live) (value : Nat) :
    Inv s { p with links := update p.links ptr value } live hand := { h with
  blocks := by
    intro block owns
    apply (h.blocks owns).frame hs (h.aligned owns) rfl rfl rfl _ rfl
    intro other here dead
    apply update_of_ne
    rintro rfl
    exact dead (mem_liveIn.mpr ⟨lives, here⟩) }

end Pools

/-! ### The operations -/

section Operations

/-- The pool after the block has handed out its first free slab. -/
def allocated (p : SlabPool) (block : Nat) : SlabPool :=
  let header := p.headers block
  { p with
    headers := update p.headers block { header with
      listHead := p.links header.listHead, occupancy := header.occupancy + 1 } }

theorem capacity_lt : capacity s < usizeSize := by
  calc capacity s ≤ blockSize / s := sub_le _ _
    _ ≤ blockSize := Nat.div_le_self _ _
    _ < usizeSize := by decide

theorem pushBack_run (out : (p.headers block).inList = false) : pushBack list block p = some
    (.ok (), { p with
        headers := update p.headers block { p.headers block with inList := true }
        lists := update p.lists list (p.lists list ++ [block]) }) := by
  simp [pushBack, out, setHeader]

theorem popFront_run (front : p.lists list = block :: rest) :
    popFront list p = some (.ok block, { p with
        headers := update p.headers block { p.headers block with inList := false }
        lists := update p.lists list rest }) := by
  simp [popFront, front, setHeader]

theorem remove_run (mem : block ∈ p.lists list) : remove list block p = some (.ok (), { p with
        headers := update p.headers block { p.headers block with inList := false }
        lists := update p.lists list ((p.lists list).erase block) }) := by
  simp [remove, mem, setHeader]

/-- The pool after a block was initialised. -/
def inited (s : Nat) (p : SlabPool) (block : Nat) : SlabPool :=
  let ptr := block + overhead s * s
  { p with
    headers := update p.headers block ⟨0, capacity s, ptr, false⟩
    links := linkSlabs s (capacity s) ptr p.links }

/-- The pool after a slab went back to its block. -/
def freed (p : SlabPool) (block ptr : Nat) : SlabPool :=
  let header := p.headers block
  { p with
    headers := update p.headers block { header with
      occupancy := header.occupancy - 1, listHead := ptr }
    links := update p.links ptr header.listHead }

theorem blockFree_run (pos : 0 < (p.headers block).occupancy) :
    SlabBlock.free block ptr p = some (.ok (), freed p block ptr) := by
  have sub : usizeSub (p.headers block).occupancy 1 = some ((p.headers block).occupancy - 1) := by
    rw [usizeSub_eq_some]
    exact ⟨pos, rfl⟩
  simp [SlabBlock.free, sub, setHeader, freed]

/-- A block with live slabs is in one of the lists. -/
theorem Inv.listed (h : Inv s p live none) (lives : ptr ∈ live) : ∃ list,
    blockOf ptr ∈ p.lists list := by
  rcases h.owned lives with (kept | listed) | held
  · have mem := mem_liveIn.mpr ⟨lives, rfl⟩
    rw [(h.empty kept).1] at mem
    cases mem
  · exact listed
  · cases held

variable (hs : IsSlabSize s)
include hs

theorem blockAlloc_run (ha : Aligned block) (ok : BlockOk s (p.headers block) p.links live block)
    (less : (liveIn live block).length < capacity s) :
    expect (SlabBlock.alloc block) p = some (.ok (p.headers block).listHead,
      allocated p block) := by
  apply handle_of_ok
  have head := slab_pos hs ha (ok.alloc hs ha less).1
  have add : usizeAdd (p.headers block).occupancy 1 = some ((p.headers block).occupancy + 1) := by
    have := capacity_lt (s := s)
    have := ok.occupancy
    rw [usizeAdd_eq_some]
    omega
  simp [SlabBlock.alloc, head, add, setHeader, allocated]

theorem Inv.allocated (h : Inv s p live (some block))
    (less : (liveIn live block).length < capacity s) :
    Inv s (allocated p block) ((p.headers block).listHead :: live) (some block) := by
  have ha := h.aligned (.inr rfl)
  obtain ⟨slab, -, ok⟩ := (h.blocks (.inr rfl)).alloc hs ha less
  have here := blockOf_slab hs ha slab
  apply h.change_hand hs ok
  · exact fun _ _ => rfl
  · intro b hb
    exact liveIn_cons_of_ne (fun same => hb (same.symm.trans here))
  · intro ptr mem
    rcases mem_cons.mp mem with rfl | mem
    · exact .inr here
    · exact .inl mem

/-- A block with a free slab stays in its list, or its last slab was handed out. -/
theorem alloc_part (h : Inv s p live none) (front : p.lists .part = block :: rest) :
    ∃ ptr p', alloc s memory p = some (.ok ptr, p') ∧ Inv s p' (ptr :: live) none := by
  have mem : block ∈ p.lists .part := by simp [front]
  obtain ⟨fits, linked⟩ := h.fits mem
  have owns : Owns p none block := .inl (.inr ⟨_, mem⟩)
  have ok := h.blocks owns
  have run := blockAlloc_run hs (h.aligned owns) ok fits.2
  have taken := (h.take hs (.of_eq front)).allocated hs fits.2
  have count := (taken.blocks (.inr rfl)).occupancy
  simp only [allocated, update_self] at count
  by_cases full : (p.headers block).occupancy + 1 = (p.headers block).capacity
  · have put := (taken.flag hs true).put .full
      (by rw [← count, full, ok.capacity]; rfl) (by simp) (perm_append_singleton _ _)
    have pop := popFront_run (p := allocated p block) front
    refine ⟨_, _, ?_, put⟩
    simp only [alloc, debugAssert_of hs.pow, lift_some_bind, get_bind, front]
    rw [bind_of_ok run, get_bind]
    rw [if_pos (by simpa [allocated] using full), bind_of_ok pop,
      bind_of_ok (pushBack_run (by simp))]
    simp [allocated]
  · have fits : Fits s .part (liveIn ((p.headers block).listHead :: live) block).length := by
      rw [← count, ok.occupancy]
      rw [ok.occupancy, ok.capacity] at full
      exact ⟨succ_pos _, Nat.lt_of_le_of_ne fits.2 full⟩
    have put := taken.put .part fits (by simpa [allocated] using linked) (.refl _)
    refine ⟨_, _, ?_, put⟩
    simp only [alloc, debugAssert_of hs.pow, lift_some_bind, get_bind, front]
    rw [bind_of_ok run, get_bind, if_neg (by simpa [allocated] using full)]
    simp [allocated, ← front]

/-- The first slab of a block without live slabs is handed out. -/
theorem alloc_unused (h : Inv s p live (some block)) (unused : liveIn live block = [])
    (out : (p.headers block).inList = false) :
    ∃ ptr p', (do
      let res ← expect (SlabBlock.alloc block)
      pushBack .part block
      pure res : Kernel Nat) p = some (.ok ptr, p') ∧ Inv s p' (ptr :: live) none := by
  have two := hs.two
  have owns : Owns p (some block) block := .inr rfl
  have ok := h.blocks owns
  have less : (liveIn live block).length < capacity s := by
    rw [unused, length_nil]
    omega
  have taken := h.allocated hs less
  have count := (taken.blocks (.inr rfl)).occupancy
  simp only [allocated, update_self, ok.occupancy, unused, length_nil] at count
  have fits : Fits s .part (liveIn ((p.headers block).listHead :: live) block).length := by
    rw [← count]
    exact ⟨Nat.one_pos, by omega⟩
  have put := (taken.flag hs true).put .part fits (by simp) (perm_append_singleton _ _)
  refine ⟨_, _, ?_, put⟩
  rw [bind_of_ok (blockAlloc_run hs (h.aligned owns) ok less)]
  rw [bind_of_ok (pushBack_run (by simpa [allocated] using out))]
  rfl

theorem init_run : SlabBlock.init block s p = some (.ok (), inited s p block) := by
  have header := hs.header
  have room := hs.room
  have first : usizeSub (overhead s * s) headerSize = some (overhead s * s - headerSize) := by simpa
  have cap : usizeSub (blockSize / s) (overhead s) = some (capacity s) :=
    usizeSub_eq_some.mpr ⟨hs.more, rfl⟩
  have bound : overhead s * s - headerSize < blockSize - headerSize := by omega
  have ptr : block + headerSize + (overhead s * s - headerSize) = block + overhead s * s := by omega
  simp [SlabBlock.init, debugAssert_of hs.min, debugAssert_of hs.pow, first, cap,
    debugAssert_of bound, setHeader, inited, ptr]

theorem Inv.inited (h : Inv s p live none) (ha : Aligned block) (absent : ¬ p.Has block) :
    Inv s (inited s p block) live (some block) ∧ liveIn live block = [] := by
  have unused : liveIn live block = [] := by
    rw [eq_nil_iff_forall_not_mem]
    intro ptr mem
    obtain ⟨lives, here⟩ := mem_liveIn.mp mem
    rcases h.owned lives with has | held
    · exact absent (here ▸ has)
    · cases held
  have min := hs.min
  have fits := ha.fits
  have whole := hs.whole
  have room := hs.room
  obtain ⟨threaded, others⟩ :=
    linkSlabs_spec (s := s) (by omega) (capacity s) p.links (block + overhead s * s) (by omega)
  refine ⟨h.change hs ?_ ?_ (fun _ _ => rfl) (fun _ lives => .inl lives) nofun absent
    ha, unused⟩
  · constructor
    case capacity => rfl
    case occupancy => simp [unused]
    case free =>
      refine ⟨slabs s block, ?_, by simp [unused]⟩
      have low : block + overhead s * s < usizeSize := by omega
      rw [mod_eq_of_lt low, Nat.add_assoc, whole] at threaded
      exact threaded
  · intro ptr elsewhere
    apply others
    rintro i hi rfl
    exact elsewhere (blockOf_slab hs ha (mem_slabs.mpr ⟨i, hi, rfl⟩))

theorem alloc_spec (h : Inv s p live none)
    (legal : ∀ block, memory = some block → Aligned block ∧ ¬ p.Has block) :
    (∃ ptr p', alloc s memory p = some (.ok ptr, p') ∧ Inv s p' (ptr :: live) none) ∨
      (memory = none ∧ alloc s memory p = some (.error .allocError, p)) := by
  cases front : p.lists .part with
  | cons block rest => exact .inl (alloc_part hs h front)
  | nil =>
    cases kept : p.empty with
    | some block =>
      left
      obtain ⟨unused, out⟩ := h.empty kept
      obtain ⟨ptr, p', run, inv⟩ := alloc_unused hs (h.take_empty hs kept) unused out
      refine ⟨ptr, p', ?_, inv⟩
      simpa [alloc, debugAssert_of hs.pow, front, kept] using run
    | none =>
      cases memory with
      | some block =>
        left
        obtain ⟨ha, absent⟩ := legal block rfl
        obtain ⟨inv, unused⟩ := h.inited hs ha absent
        obtain ⟨ptr, p', run, inv⟩ := alloc_unused hs inv unused (by simp [inited])
        refine ⟨ptr, p', ?_, inv⟩
        simp only [alloc, debugAssert_of hs.pow, lift_some_bind, get_bind, front, kept]
        rw [bind_of_ok (init_run hs)]
        exact run
      | none =>
        simp [alloc, debugAssert_of hs.pow, front, kept]

theorem Inv.freed (h : Inv s p live (some (blockOf ptr))) (lives : ptr ∈ live) :
    Inv s (freed p (blockOf ptr) ptr) (live.erase ptr) (some (blockOf ptr)) := by
  have mem : ptr ∈ liveIn live (blockOf ptr) := mem_liveIn.mpr ⟨lives, rfl⟩
  apply h.change_hand hs ((h.blocks (.inr rfl)).release hs mem).2
  · intro other elsewhere
    apply update_of_ne
    rintro rfl
    exact elsewhere rfl
  · intro b hb
    exact liveIn_erase_of_ne (Ne.symm hb)
  · intro other mem
    exact .inl (mem_of_mem_erase mem)

theorem free_spec (h : Inv s p live none) (lives : ptr ∈ live) :
    ∃ p', free ptr p = some (.ok (), p') ∧ Inv s p' (live.erase ptr) none := by
  let header := p.headers (blockOf ptr)
  have two := hs.two
  obtain ⟨list, mem⟩ := h.listed lives
  have here := mem_liveIn.mpr ⟨lives, rfl⟩
  have ok := h.blocks (.inl (.inr ⟨list, mem⟩))
  have run : SlabBlock.free (blockOf ptr) ptr p = _ := blockFree_run (ok.release hs here).1
  obtain ⟨fits, linked⟩ := h.fits mem
  have taken := (h.take hs (perm_cons_erase mem)).freed hs lives
  have count : (liveIn (live.erase ptr) (blockOf ptr)).length =
      (liveIn live (blockOf ptr)).length - 1 := by
    rw [liveIn_erase, length_erase_of_mem here]
  cases list with
  | full =>
    have full : header.occupancy = header.capacity := by
      rw [ok.occupancy, ok.capacity]
      exact fits
    have fits : Fits s .part (liveIn (live.erase ptr) (blockOf ptr)).length := by
      rw [count, show _ = capacity s from fits]
      constructor <;> omega
    have put := (taken.flag hs true).put .part fits (by simp) (perm_append_singleton _ _)
    have removed := remove_run (p := freed p (blockOf ptr) ptr) mem
    refine ⟨_, ?_, put⟩
    simp only [free, get_bind]
    rw [bind_of_ok run, get_bind, if_pos full, bind_of_ok removed, pushBack_run (by simp)]
    simp [freed]
  | part =>
    have less : header.occupancy ≠ header.capacity := by
      rw [ok.occupancy, ok.capacity]
      exact Nat.ne_of_lt fits.2
    simp only [free, get_bind]
    rw [bind_of_ok run, get_bind, if_neg less]
    by_cases last : header.occupancy - 1 = 0
    · have unused : liveIn (live.erase ptr) (blockOf ptr) = [] := by
        rw [← length_eq_zero_iff, count, ← ok.occupancy]
        exact last
      have removed := remove_run (p := freed p (blockOf ptr) ptr) mem
      have out := taken.flag hs false
      rw [if_pos (by simpa [freed] using last), bind_of_ok removed]
      by_cases room : p.empty = none
      · refine ⟨_, ?_, out.put_empty room unused (by simp)⟩
        rw [if_pos (by simpa [freed] using room)]
        rfl
      · refine ⟨_, ?_, out.give_back unused⟩
        rw [if_neg (by simpa [freed] using room)]
        rfl
    · have fits : Fits s .part (liveIn (live.erase ptr) (blockOf ptr)).length := by
        rw [count, ← ok.occupancy]
        refine ⟨Nat.pos_of_ne_zero last, ?_⟩
        have := fits.2
        rw [ok.occupancy]
        omega
      have put := taken.put .part fits (by simpa [freed] using linked) (perm_cons_erase mem)
      refine ⟨_, ?_, put⟩
      rw [if_neg (by simpa [freed] using last)]
      simp [freed]

end Operations

/-! ### Sequences of calls -/

theorem Inv.placed (hs : IsSlabSize s) (h : Inv s p (ptr :: live) none) : Placed s p live ptr := by
  have owned := h.owned mem_cons_self
  have slab := h.live_slab mem_cons_self
  constructor
  case inside =>
    exact ⟨blockOf ptr, owned.resolve_right nofun, slab, slab_inside hs slab⟩
  case apart =>
    intro other lives
    have lives' := mem_cons_of_mem ptr lives
    apply slabs_apart hs (h.aligned owned) (h.aligned (h.owned lives')) slab (h.live_slab lives')
    -- the live slabs of the block are distinct
    rintro rfl
    have nodup := (h.blocks owned).live_nodup hs
    rw [liveIn_cons_self rfl] at nodup
    exact (nodup_cons.mp nodup).1 (mem_liveIn.mpr ⟨lives, rfl⟩)

theorem Inv.sound (hs : IsSlabSize s) {calls : List Call} (h : Inv s p live none) :
    Sound s calls p live := by
  induction calls generalizing p live with
  | nil => exact h.tidy hs
  | cons call rest ih =>
    refine ⟨h.tidy hs, fun legal => ?_⟩
    cases call with
    | alloc memory =>
      rcases alloc_spec hs h legal with ⟨ptr, p', run, inv⟩ | ⟨rfl, run⟩
      · simp only [Call.exec, bind_of_ok run]
        exact ⟨inv.placed hs, ih inv⟩
      · simp only [Call.exec, bind_of_error run]
        exact ⟨trivial, ih h⟩
    | free ptr =>
      obtain ⟨p', run, inv⟩ := free_spec hs h legal
      simp only [Call.exec, bind_of_ok run]
      exact ih inv
    | store ptr value => exact ih (h.store hs legal value)

theorem new_inv {headers : Nat → Header} : Inv s (new headers links) [] none where
  aligned owns := by simp [Owns, Has, new] at owns
  blocks owns := by simp [Owns, Has, new] at owns
  owned := nofun
  nodup _ := nodup_nil
  fits := nofun
  empty := nofun
  hand := nofun

theorem slabPool_sound {bucket : Nat} (h : bucket < sizes) (headers : Nat → Header)
    (links : Nat → Nat)
    (calls : List Call) : Sound (smallest * sizeMul ^ bucket) calls (new headers links) [] :=
  new_inv.sound (isSlabSize h)

/-- Memory before anything was written. -/
def zeroed : SlabPool := new (fun _ => ⟨0, 0, 0, false⟩) fun _ => 0

theorem slabPool_sound_largest : 8 < sizes ∧
    Sound (smallest * sizeMul ^ 8) [.alloc (some 16384), .alloc none, .free 18432, .alloc none]
      zeroed [] :=
  ⟨by decide, slabPool_sound (by decide) _ _ _⟩

/-- After its only slab was freed, the block that is kept has free slabs and is in
no list. -/
theorem kept_block_unlisted : ∃ p p', alloc 2048 (some 16384) zeroed = some (.ok 18432, p) ∧
    free 18432 p = some (.ok (), p') ∧ p'.Has 16384 ∧
      (p'.headers 16384).occupancy < capacity 2048 ∧
    16384 ∉ p'.lists .part := by
  refine ⟨_, _, rfl, rfl, .inl rfl, ?_, ?_⟩
  · decide +kernel
  · decide +kernel

end BadgerOS.Heap
