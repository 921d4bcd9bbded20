import BadgerOS.Lib.Tables
import BadgerOS.Vmm.PageTable

/-!
# Translation by page tables

What the tables mean: the leaf that a page number leads to, and the page and flags
that it gives. Splitting a leaf and new tables do not change that, and an entry that
is written changes it for the pages under it.
-/

namespace BadgerOS.PageTable

open Fallible Tables Function Nat

variable {k : Machine} {m : Mem} {root key key' level table index vaddr flags n ppn raw page : Nat}
  {places : Places} {pte : PTE}

/-! ### Entries -/

def PTE.entry (pte : PTE) : Entry PTE :=
  if pte.valid = false then .empty else if pte.leaf then .leaf pte else .table (pte.ppn * pageSize)

/-- What a word is at a level. -/
def slot (k : Machine) (level raw : Nat) : Entry PTE := (k.arch.unpackPte raw level).entry

def view (k : Machine) (m : Mem) : Tables.Slots PTE :=
  fun level page i => slot k level (m.tables page i)

/-- The page and the flags that a leaf gives. -/
def meaning (key : Nat) : Option (Nat × PTE) → Option (Nat × Nat)
  | some (level, pte) => some (pte.ppn + key % ptePerPage ^ level, pte.flags)
  | none => none

/-- The page and the flags that a page number leads to. -/
def translate (k : Machine) (m : Mem) (root key : Nat) : Option (Nat × Nat) :=
  meaning key (look ptePerPage (view k m) key (k.pagingLevels - 1) root)

/-- The entry is read as it was written. -/
def Packs (k : Machine) (pte : PTE) : Prop := k.arch.unpackPte (k.arch.packPte pte) pte.level = pte

/-- All leaves for the given pages are. -/
def LeavesPack (k : Machine) (ppn pages flags : Nat) : Prop :=
  ∀ {level j : Nat}, level < k.pagingLevels → j < pages →
    Packs k ⟨ppn + j, flags, level, true, true⟩

/-- The entry can be cleaned up: its page has a `Page`, and is the first of its block if it is dirty
and
part of a memory object. -/
def Cleans (k : Machine) (ppn flags : Nat) : Prop :=
  flags &&& refcountFlag ≠ 0 → (k.pageRange.1 ≤ ppn ∧ ppn < k.pageRange.2) ∧
    (flags &&& dirtyFlag ≠ 0 → k.memobject (k.pageBase ppn) = true → ppn ≤ k.pageBase ppn)

/-- Leaves for the given pages can be written, split and cleaned up. -/
structure Fits (k : Machine) (ppn pages flags : Nat) : Prop where
  packs : LeavesPack k ppn pages flags
  cleans : ∀ j < pages, Cleans k (ppn + j) flags

variable {pages p j l : Nat} {m' : Mem}

theorem Fits.part {first : Nat} (h : Fits k ppn pages flags) (inside : first + n ≤ pages) :
    Fits k (ppn + first) n flags := by
  constructor
  · intro level j lt lt'
    rw [Nat.add_assoc]
    exact h.packs lt (by omega)
  · intro j lt
    rw [Nat.add_assoc]
    exact h.cleans _ (by omega)

theorem Fits.take (h : Fits k ppn pages flags) (inside : n ≤ pages) : Fits k ppn n flags := by
  constructor
  · intro level j lt lt'
    exact h.packs lt (by omega)
  · intro j lt
    exact h.cleans j (by omega)

/-- What is relied on: `page_alloc` hands out pages that are not in use, and entries for tables are
read as they were written. -/
structure Lawful (k : Machine) : Prop where
  levels : 1 ≤ k.pagingLevels ∧ k.pagingLevels ≤ 5
  zero : ∀ level, (k.arch.unpackPte 0 level).valid = false
  level : ∀ raw level, (k.arch.unpackPte raw level).level = level
  fresh : ∀ {used page}, k.pageAlloc used = some page → page ∉ used
  aligned : ∀ {used page}, k.pageAlloc used = some page → page % pageSize = 0
  proper : ∀ {used page}, k.pageAlloc used = some page → page ≠ 0
  pointer : ∀ {used page flags level}, k.pageAlloc used = some page →
    (flags = 0 ∨ flags = globalFlag) →
    level < k.pagingLevels →
      slot k level (k.arch.packPte ⟨page / pageSize, flags, level, true, false⟩) = .table page
  uncounted : ∀ {used page flags level}, k.pageAlloc used = some page →
    (flags = 0 ∨ flags = globalFlag) →
    level < k.pagingLevels → (k.arch.unpackPte (k.arch.packPte ⟨page / pageSize, flags, level,
      true, false⟩) level).flags &&& refcountFlag = 0

theorem slot_zero (law : Lawful k) : slot k level 0 = .empty := by
  unfold slot PTE.entry
  rw [if_pos (law.zero level)]

theorem slot_leaf (packs : Packs k ⟨ppn, flags, level, true, true⟩) :
    slot k level (k.arch.packPte ⟨ppn, flags, level, true, true⟩) = .leaf
      ⟨ppn, flags, level, true, true⟩ := by
  have read := packs
  unfold slot
  rw [read]
  rfl

theorem slot_eq_leaf (h : slot k level raw = .leaf pte) :
    k.arch.unpackPte raw level = pte ∧ pte.valid = true ∧ pte.leaf = true := by
  unfold slot PTE.entry at h
  split at h
  · cases h
  · split at h
    · simp_all
    · cases h

/-- A pointer to a table is to some page and is not counted. -/
def Links (k : Machine) (level raw : Nat) : Prop :=
  ∀ {q : Nat}, slot k level raw = .table q → q ≠ 0 ∧
    (k.arch.unpackPte raw level).flags &&& refcountFlag = 0

/-- The places of the tables, and what is in them. -/
structure Good (k : Machine) (root : Nat) (m : Mem) (places : Places) : Prop where
  root : places root = some (k.pagingLevels - 1, 0)
  used : ∀ {p x}, places p = some x → p ∈ m.used
  placed : Placed ptePerPage (view k m) places
  links : ∀ {p l b i}, places p = some (l, b) → i < ptePerPage → Links k l (m.tables p i)
  leaf : ∀ {p l b i pte}, places p = some (l, b) → i < ptePerPage →
    view k m l p i = .leaf pte → pte.level = l ∧ Fits k pte.ppn (ptePerPage ^ l) pte.flags

theorem Good.start (good : Good k root m places) (inside : key < ptePerPage ^ k.pagingLevels)
    (law : Lawful k) :
    places root = some (k.pagingLevels - 1, key / ptePerPage ^ (k.pagingLevels - 1 + 1)) := by
  rw [good.root, Nat.sub_add_cancel law.levels.1, div_eq_of_lt inside]

theorem view_congr (same : m'.tables = m.tables) : view k m' = view k m := by
  unfold view
  rw [same]

theorem Good.congr (good : Good k root m places) (same : m'.tables = m.tables)
    (used : m'.used = m.used) : Good k root m' places := by
  constructor
  · exact good.root
  · intro p x h
    rw [used]
    exact good.used h
  · rw [view_congr same]
    exact good.placed
  · rw [same]
    exact good.links
  · rw [view_congr same]
    exact good.leaf

/-- A leaf, or nothing, that may be in a slot at a level. -/
def Plain (k : Machine) (level : Nat) : Entry PTE → Prop
  | .empty => True
  | .leaf pte => pte.level = level ∧ Fits k pte.ppn (ptePerPage ^ level) pte.flags
  | .table _ => False

/-- What a plain slot leads to. -/
def Entry.found (level : Nat) : Entry PTE → Option (Nat × PTE)
  | .leaf pte => some (level, pte)
  | _ => none

theorem look_plain {slots : Tables.Slots PTE}
    (plain : Plain k level (slots level table (Tables.index ptePerPage key level))) :
    look ptePerPage slots key level table =
      Entry.found level (slots level table (Tables.index ptePerPage key level)) := by
  cases level with
  | zero =>
    unfold look
    cases h : slots 0 table (index ptePerPage key 0) <;> rfl
  | succ level =>
    unfold look
    cases h : slots (level + 1) table _ with
    | empty | leaf pte => rfl
    | table q =>
      rw [h] at plain
      exact plain.elim

/-! ### Writing an entry -/

theorem tables_setEntry_ne (other : p ≠ table ∨ j ≠ index) :
    (m.setEntry table index raw).tables p j = m.tables p j := by
  unfold Mem.setEntry Mem.setTable
  dsimp only
  by_cases same : p = table
  · subst same
    rw [update_self, update_of_ne (other.resolve_left (not_not_intro rfl))]
  · rw [update_of_ne same]

theorem tables_setEntry : (m.setEntry table index raw).tables table index = raw := by
  unfold Mem.setEntry Mem.setTable
  dsimp only
  rw [update_self, update_self]

theorem view_setEntry_ne (other : p ≠ table ∨ j ≠ index) :
    view k (m.setEntry table index raw) l p j = view k m l p j := by
  unfold view
  rw [tables_setEntry_ne other]

theorem view_setEntry : view k (m.setEntry table index raw) l table index = slot k l raw := by
  unfold view
  rw [tables_setEntry]

theorem Plain.links (plain : Plain k level (slot k level raw)) : Links k level raw := by
  intro q entry
  rw [entry] at plain
  exact plain.elim

/-- A plain entry is written where the key leads. -/
theorem Good.store (law : Lawful k) (good : Good k root m places)
    (inside : key < ptePerPage ^ k.pagingLevels)
    (reach : Reach ptePerPage (view k m) key (k.pagingLevels - 1) root level table)
    (plain : Plain k level (slot k level raw)) :
    Good k root (m.setEntry table (Tables.index ptePerPage key level) raw) places ∧
      ∀ key' < ptePerPage ^ k.pagingLevels,
        translate k (m.setEntry table (Tables.index ptePerPage key level) raw) root key' =
          if key' / ptePerPage ^ level = key / ptePerPage ^ level then
            meaning key' (Entry.found level (slot k level raw))
          else translate k m root key' := by
  let m' := m.setEntry table (index ptePerPage key level) raw
  have pos : 0 < ptePerPage := by decide
  have place := reach.place pos good.placed (good.start inside law)
  have agree : Agree places table (index ptePerPage key level) (view k m) (view k m') :=
    fun _ other => view_setEntry_ne other
  constructor
  · constructor
    · exact good.root
    · exact good.used
    · apply Placed.replace good.placed agree place id
      · intro p l b j q none some _
        rw [none] at some
        cases some
      · intro q entry
        rw [view_setEntry] at entry
        rw [entry] at plain
        exact plain.elim
    · intro p l b i here lt
      by_cases this : p = table ∧ i = index ptePerPage key level
      · obtain ⟨rfl, rfl⟩ := this
        rw [place] at here
        cases here
        rw [tables_setEntry]
        exact plain.links
      · rw [tables_setEntry_ne (Decidable.not_and_iff_or_not.mp this)]
        exact good.links here lt
    · intro p l b i pte here lt entry
      by_cases this : p = table ∧ i = index ptePerPage key level
      · obtain ⟨rfl, rfl⟩ := this
        rw [place] at here
        cases here
        rw [view_setEntry] at entry
        rw [entry] at plain
        exact plain
      · rw [view_setEntry_ne (Decidable.not_and_iff_or_not.mp this)] at entry
        exact good.leaf here lt entry
  · intro key' inside'
    unfold translate
    rw [look_replace pos good.placed (good.start inside law) reach agree]
    · split
      · rename_i same
        have here : view k m' level table (index ptePerPage key' level) = slot k level raw := by
          rw [index_eq same]
          exact view_setEntry
        rw [look_plain (by rw [here]; exact plain), here]
      · rfl
    · rw [Nat.sub_add_cancel law.levels.1, div_eq_of_lt inside, div_eq_of_lt inside']

/-- A new table in a page, and a pointer to it. -/
def Mem.graft (m : Mem) (page : Nat) (entries : Nat → Nat) (table index raw : Nat) : Mem :=
  (Mem.setTable { m with used := page :: m.used } page entries).setEntry table index raw

/-- The tables mean what they did before, and the key leads to a table at the level. -/
def Leads (k : Machine) (root : Nat) (m : Mem) (key level table : Nat) (m' : Mem) : Prop :=
  ∃ places, Good k root m' places ∧
    Reach ptePerPage (view k m') key (k.pagingLevels - 1) root level table ∧
    ∀ key' < ptePerPage ^ k.pagingLevels, translate k m' root key' = translate k m root key'

/-- A new table, whose entries are plain, and a pointer to it for the slot that the key leads to,
in which there was no table. -/
structure Grafts (k : Machine) (root : Nat) (m : Mem) (places : Places) (key level table page : Nat)
    (entries : Nat → Nat) (raw : Nat) : Prop where
  good : Good k root m places
  inside : key < ptePerPage ^ k.pagingLevels
  reach : Reach ptePerPage (view k m) key (k.pagingLevels - 1) root (level + 1) table
  free : page ∉ m.used
  pointer : slot k (level + 1) raw = .table page
  links : Links k (level + 1) raw
  plain : ∀ i < ptePerPage, Plain k level (slot k level (entries i))
  old : Plain k (level + 1) (view k m (level + 1) table (Tables.index ptePerPage key (level + 1)))

section Grafts

variable {entries : Nat → Nat}

theorem tables_graft_page (apart : page ≠ table) :
    (m.graft page entries table index raw).tables page j = entries j := by
  unfold Mem.graft
  rw [tables_setEntry_ne (.inl apart)]
  unfold Mem.setTable
  dsimp only
  rw [update_self]

theorem tables_graft_ne (ne : p ≠ page) (other : p ≠ table ∨ j ≠ index) :
    (m.graft page entries table index raw).tables p j = m.tables p j := by
  unfold Mem.graft
  rw [tables_setEntry_ne other]
  unfold Mem.setTable
  dsimp only
  rw [update_of_ne ne]

theorem view_graft_page (apart : page ≠ table) :
    view k (m.graft page entries table index raw) l page j = slot k l (entries j) := by
  unfold view
  rw [tables_graft_page apart]

theorem view_graft_ne (ne : p ≠ page) (other : p ≠ table ∨ j ≠ index) :
    view k (m.graft page entries table index raw) l p j = view k m l p j := by
  unfold view
  rw [tables_graft_ne ne other]

theorem view_graft :
    view k (m.graft page entries table index raw) l table index = slot k l raw :=
  view_setEntry

variable (law : Lawful k) (h : Grafts k root m places key level table page entries raw)
include h

theorem Grafts.known {x : Nat × Nat} (placed : places p = some x) : p ≠ page := by
  rintro rfl
  exact h.free (h.good.used placed)

/-- Nothing but the slot changes in the tables that there were. -/
theorem Grafts.agree : Agree places table (Tables.index ptePerPage key (level + 1)) (view k m)
    (view k (m.graft page entries table (Tables.index ptePerPage key (level + 1)) raw)) :=
  fun placed other => view_graft_ne (h.known placed) other

include law

theorem Grafts.place : places table = some (level + 1, key / ptePerPage ^ (level + 1 + 1)) :=
  h.reach.place (by decide) h.good.placed (h.good.start h.inside law)

theorem Grafts.apart : page ≠ table := (h.known (h.place law)).symm

/-- The key leads to the new table. -/
theorem Grafts.reach_page : Reach ptePerPage
    (view k (m.graft page entries table (Tables.index ptePerPage key (level + 1)) raw)) key
      (k.pagingLevels - 1) root level page := by
  refine .down (h.reach.keep (by decide) h.good.placed (h.good.start h.inside law) h.agree
    (h.place law) le_rfl) ?_
  rw [view_graft, h.pointer]

/-- The new table has the place that the pointer gives it. -/
theorem Grafts.placed : Placed ptePerPage
    (view k (m.graft page entries table (Tables.index ptePerPage key (level + 1)) raw))
      (update places page (some (level, key / ptePerPage ^ (level + 1)))) := by
  apply Placed.replace h.good.placed h.agree (h.place law)
  · intro p x placed
    rw [update_of_ne (h.known placed)]
    exact placed
  · intro p l b j q none placed lt
    by_cases new : p = page
    · subst new
      rw [update_self] at placed
      cases placed
      rw [view_graft_page (h.apart law)]
      intro entry
      have no := h.plain j lt
      rw [entry] at no
      exact no
    · rw [update_of_ne new, none] at placed
      cases placed
  · intro q entry
    rw [view_graft, h.pointer] at entry
    cases entry
    refine ⟨level, rfl, ?_⟩
    rw [update_self, ← Tables.div_eq]

theorem Grafts.good_after : Good k root
    (m.graft page entries table (Tables.index ptePerPage key (level + 1)) raw)
      (update places page (some (level, key / ptePerPage ^ (level + 1)))) := by
  have apart := h.apart law
  have place := h.place law
  constructor
  · rw [update_of_ne (h.known h.good.root)]
    exact h.good.root
  · intro p x placed
    by_cases new : p = page
    · subst new
      exact List.mem_cons_self
    · rw [update_of_ne new] at placed
      exact List.mem_cons_of_mem _ (h.good.used placed)
  · exact h.placed law
  · intro p l b i placed lt
    by_cases new : p = page
    · subst new
      rw [update_self] at placed
      cases placed
      rw [tables_graft_page apart]
      exact (h.plain i lt).links
    · rw [update_of_ne new] at placed
      by_cases this : p = table ∧ i = Tables.index ptePerPage key (level + 1)
      · obtain ⟨rfl, rfl⟩ := this
        rw [place] at placed
        cases placed
        unfold Mem.graft
        rw [tables_setEntry]
        exact h.links
      · rw [tables_graft_ne new (Decidable.not_and_iff_or_not.mp this)]
        exact h.good.links placed lt
  · intro p l b i pte placed lt entry
    by_cases new : p = page
    · subst new
      rw [update_self] at placed
      cases placed
      have yes := h.plain i lt
      rw [view_graft_page apart] at entry
      rw [entry] at yes
      exact yes
    · rw [update_of_ne new] at placed
      by_cases this : p = table ∧ i = Tables.index ptePerPage key (level + 1)
      · obtain ⟨rfl, rfl⟩ := this
        rw [place] at placed
        cases placed
        rw [view_graft, h.pointer] at entry
        cases entry
      · rw [view_graft_ne new (Decidable.not_and_iff_or_not.mp this)] at entry
        exact h.good.leaf placed lt entry

/-- Below the slot, the entries of the new table are found. -/
theorem Grafts.look_below {key' : Nat}
    (equal : key' / ptePerPage ^ (level + 1) = key / ptePerPage ^ (level + 1)) : look ptePerPage
      (view k (m.graft page entries table (Tables.index ptePerPage key (level + 1)) raw)) key'
        (level + 1) table =
      Entry.found level (slot k level (entries (Tables.index ptePerPage key' level))) := by
  unfold look
  rw [index_eq equal, view_graft, h.pointer]
  dsimp only
  rw [look_plain]
  · rw [view_graft_page (h.apart law)]
  · rw [view_graft_page (h.apart law)]
    exact h.plain _ (index_lt (by decide))

end Grafts

/-- A new table under the slot that the key leads to, with the same meaning as what was there. -/
theorem Good.graft {entries : Nat → Nat} (law : Lawful k) (good : Good k root m places)
    (inside : key < ptePerPage ^ k.pagingLevels)
    (reach : Reach ptePerPage (view k m) key (k.pagingLevels - 1) root (level + 1) table)
    (free : page ∉ m.used) (pointer : slot k (level + 1) raw = .table page)
    (links : Links k (level + 1) raw)
    (plain : ∀ i < ptePerPage, Plain k level (slot k level (entries i)))
    (old : Plain k (level + 1)
      (view k m (level + 1) table (Tables.index ptePerPage key (level + 1))))
    (same : ∀ key', key' / ptePerPage ^ (level + 1) = key / ptePerPage ^ (level + 1) →
      meaning key'
        (Entry.found level (slot k level (entries (Tables.index ptePerPage key' level)))) =
      meaning key' (Entry.found (level + 1)
        (view k m (level + 1) table (Tables.index ptePerPage key (level + 1))))) :
    Leads k root m key level page
      (m.graft page entries table (Tables.index ptePerPage key (level + 1)) raw) := by
  have h : Grafts k root m places key level table page entries raw :=
    ⟨good, inside, reach, free, pointer, links, plain, old⟩
  refine ⟨_, h.good_after law, h.reach_page law, ?_⟩
  intro key' inside'
  unfold translate
  have under : key' / ptePerPage ^ (k.pagingLevels - 1 + 1) =
      key / ptePerPage ^ (k.pagingLevels - 1 + 1) := by
    rw [Nat.sub_add_cancel law.levels.1, div_eq_of_lt inside, div_eq_of_lt inside']
  rw [look_replace (by decide) good.placed (good.start inside law) reach h.agree under]
  split
  · rename_i equal
    have before : look ptePerPage (view k m) key' (k.pagingLevels - 1) root = Entry.found
        (level + 1) (view k m (level + 1) table (Tables.index ptePerPage key (level + 1))) := by
      rw [reach.look (div_succ_eq equal), look_plain, index_eq equal]
      rw [index_eq equal]
      exact h.old
    rw [h.look_below law equal, before]
    exact same key' equal
  · rfl

/-! ### Page numbers -/

/-- The part of an address that the tables look at. -/
def vpn (k : Machine) (vaddr : Nat) : Nat := vaddr / pageSize % ptePerPage ^ k.pagingLevels

theorem vpn_lt : vpn k vaddr < ptePerPage ^ k.pagingLevels := mod_lt _ (Nat.pow_pos (by decide))

theorem getVpnIndex_eq (vaddr : Nat) (lt : level < k.pagingLevels) :
    getVpnIndex vaddr level = Tables.index ptePerPage (vpn k vaddr) level := by
  obtain ⟨above, total⟩ := Nat.exists_eq_add_of_lt lt
  have shift : 2 ^ (level * bitsPerLevel + pageBits) = pageSize * ptePerPage ^ level := by
    rw [Nat.pow_add, Nat.mul_comm level, Nat.pow_mul, Nat.mul_comm]
    rfl
  have size : ptePerPage ^ k.pagingLevels =
      ptePerPage ^ level * (ptePerPage * ptePerPage ^ above) := by
    rw [total, Nat.add_assoc, Nat.pow_add, Nat.pow_succ, Nat.mul_comm (ptePerPage ^ above)]
  unfold getVpnIndex index vpn
  rw [shiftRight_eq_div_pow, shift, ← Nat.div_div_eq_div_mul, size, mod_mul_right_div_self,
    mod_mul_right_mod]
  rfl

/-! ### Down to a level -/

theorem two_pow_bits (level : Nat) : 2 ^ (level * bitsPerLevel) = ptePerPage ^ level := by
  rw [Nat.mul_comm, Nat.pow_mul]
  rfl

/-- The parts of a leaf mean what the leaf does. -/
theorem meaning_part (key : Nat) (pte : PTE) (level : Nat) :
    pte.ppn + Tables.index ptePerPage key level <<< (level * bitsPerLevel) +
      key % ptePerPage ^ level = pte.ppn + key % ptePerPage ^ (level + 1) := by
  rw [shiftLeft_eq, two_pow_bits, Nat.pow_succ, mod_mul, Nat.mul_comm (index ..)]
  unfold index
  omega

section

variable (law : Lawful k) (good : Good k root m places) (inside : key < ptePerPage ^ k.pagingLevels)
  (reach : Reach ptePerPage (view k m) key (k.pagingLevels - 1) root (level + 1) table)
  (links : Links k (level + 1) raw) (given : k.pageAlloc m.used = some page)
  (pointer : slot k (level + 1) raw = .table page)
include law good inside reach links given pointer

/-- An empty table where there was nothing. -/
theorem Good.newTable
    (empty : view k m (level + 1) table (Tables.index ptePerPage key (level + 1)) = .empty) :
    Leads k root m key level page
      (m.graft page (fun _ => 0) table (Tables.index ptePerPage key (level + 1)) raw) := by
  apply good.graft law inside reach (law.fresh given) pointer links
  · intro i _
    rw [slot_zero law]
    trivial
  · rw [empty]
    trivial
  · intro key' _
    rw [empty, slot_zero law]
    rfl

/-- The parts of a leaf in a table in its place. -/
theorem Good.split (bound : level + 1 < k.pagingLevels)
    (leaf : view k m (level + 1) table (Tables.index ptePerPage key (level + 1)) = .leaf pte) :
    Leads k root m key level page (m.graft page (fun i => k.arch.packPte
      { pte with ppn := pte.ppn + i <<< (level * bitsPerLevel), level := level }) table
      (Tables.index ptePerPage key (level + 1)) raw) := by
  have pos : 0 < ptePerPage := by decide
  obtain ⟨at_level, fits⟩ :=
    good.leaf (reach.place pos good.placed (good.start inside law)) (index_lt pos) leaf
  obtain ⟨-, valid, isLeaf⟩ := slot_eq_leaf leaf
  have part (i : Nat) (lt : i < ptePerPage) : Fits k (pte.ppn + i <<< (level * bitsPerLevel))
      (ptePerPage ^ level) pte.flags := by
    apply fits.part
    rw [shiftLeft_eq, two_pow_bits, Nat.pow_succ]
    calc i * ptePerPage ^ level + ptePerPage ^ level = (i + 1) * ptePerPage ^ level :=
      (succ_mul ..).symm
      _ ≤ ptePerPage * ptePerPage ^ level := Nat.mul_le_mul_right _ lt
      _ = ptePerPage ^ level * ptePerPage := Nat.mul_comm ..
  have written (i : Nat) (lt : i < ptePerPage) : slot k level (k.arch.packPte
      { pte with ppn := pte.ppn + i <<< (level * bitsPerLevel), level := level }) =
      .leaf { pte with ppn := pte.ppn + i <<< (level * bitsPerLevel), level := level } := by
    rw [valid, isLeaf]
    exact slot_leaf ((part i lt).packs (by omega) (Nat.pow_pos pos))
  apply good.graft law inside reach (law.fresh given) pointer links
  · intro i lt
    rw [written i lt]
    exact ⟨rfl, part i lt⟩
  · rw [leaf]
    exact ⟨at_level, fits⟩
  · intro key' _
    rw [leaf, written _ (index_lt pos)]
    simp only [Entry.found, meaning, meaning_part key' pte level]

end

/-- A page is free while fewer pages than the limit are tables. -/
def Enough (k : Machine) (limit : Nat) : Prop := ∀ used : List Nat, used.length < limit →
    k.pageAlloc used ≠ none

theorem descend_ok {target limit : Nat} (law : Lawful k) (enough : Enough k limit)
    (room : m.used.length + n ≤ limit)
    (good : Good k root m places) (bound : target + n < k.pagingLevels)
    (reach : Reach ptePerPage (view k m) (vpn k vaddr) (k.pagingLevels - 1) root (target + n) table)
    : ∃ table' m', descend k vaddr false target n table m = some (.ok (some table'), m') ∧
      Leads k root m (vpn k vaddr) target table' m' ∧ m'.used.length ≤ m.used.length + n := by
  induction n generalizing m table places with
  | zero => exact ⟨table, m, rfl, ⟨places, good, reach, fun _ _ => rfl⟩, le_rfl⟩
  | succ n ih =>
    rw [← Nat.add_assoc] at bound reach
    have index_eq := getVpnIndex_eq vaddr bound
    generalize read : k.arch.unpackPte _ _ = pte
    have entry : view k m (target + n + 1) table
      (Tables.index ptePerPage (vpn k vaddr) (target + n + 1)) =
        pte.entry := by
      rw [← index_eq, ← read]
      rfl
    obtain ⟨page, given⟩ := Option.ne_none_iff_exists'.mp (enough m.used (by omega))
    have pointer : slot k (target + n + 1) (k.arch.packPte ⟨page / pageSize,
        if isCanonKernelAddr k vaddr then globalFlag else 0, target + n + 1, true,
            false⟩) = .table page :=
      law.pointer given (by split <;> simp) bound
    have links : Links k (target + n + 1) (k.arch.packPte ⟨page / pageSize,
        if isCanonKernelAddr k vaddr then globalFlag else 0, target + n + 1, true, false⟩) := by
      intro q entry
      rw [pointer] at entry
      cases entry
      exact ⟨law.proper given, law.uncounted given (by split <;> simp) bound⟩
    unfold descend
    simp only [readPte, bind_bind, get_bind, pure_andThen, read]
    -- What a new table leads to.
    have go {m₁ : Mem} (leads : Leads k root m (vpn k vaddr) (target + n) page m₁)
      (used : m₁.used = page :: m.used) :
        ∃ table' m', descend k vaddr false target n page m₁ = some (.ok (some table'), m') ∧
          Leads k root m (vpn k vaddr) target table' m' ∧
              m'.used.length ≤ m.used.length + (n + 1) := by
      obtain ⟨places₁, good₁, reach₁, same₁⟩ := leads
      have grown : m₁.used.length = m.used.length + 1 := by rw [used, List.length_cons]
      obtain ⟨table', m', run, ⟨places', good', reach', same'⟩, short⟩ :=
        ih (by omega) good₁ (by omega) reach₁
      exact ⟨table', m', run, ⟨places', good', reach', fun key' lt =>
        (same' key' lt).trans (same₁ key' lt)⟩, by omega⟩
    by_cases invalid : pte.valid = false
    · have empty : pte.entry = .empty := by
        unfold PTE.entry
        rw [if_pos invalid]
      rw [if_pos invalid]
      simp only [allocPgtablePage, pageAlloc, bind_bind, get_bind, given, modify_bind, pure_andThen,
        writePte, Bool.false_eq_true, if_false, index_eq]
      exact go (good.newTable law vpn_lt reach links given pointer (entry.trans empty)) rfl
    · rw [if_neg invalid]
      by_cases leaf : pte.leaf = true
      · have isLeaf : pte.entry = .leaf pte := by
          unfold PTE.entry
          rw [if_neg invalid, if_pos leaf]
        rw [if_pos leaf]
        simp only [splitPgtableLeaf, pageAlloc, bind_bind, get_bind, given, modify_bind,
          pure_andThen, writePte, index_eq]
        exact go (good.split law vpn_lt reach links given pointer bound (entry.trans isLeaf)) rfl
      · have isTable : pte.entry = .table (pte.ppn * pageSize) := by
          unfold PTE.entry
          rw [if_neg invalid, if_neg leaf]
        rw [if_neg leaf]
        obtain ⟨table', m', run, leads, short⟩ :=
          ih (by omega) good (by omega) (.down reach (entry.trans isTable))
        exact ⟨table', m', run, leads, by omega⟩

end BadgerOS.PageTable
