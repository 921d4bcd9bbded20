import BadgerOS.Mem.PageCache
import BadgerOS.Util.RadixMap

/-!
# The page cache is a byte array

`Inv` ties the tree, the flags and the store together: the array shows through
the entries, and through the store where there is no entry; a clean entry agrees
with the store. Every operation keeps it as long as the tree can count one more
entry in each node.
-/

namespace BadgerOS.PageCache

open Fallible Function List Nat State RadixTree

namespace Config

variable (c : Config) {x i : Nat}

/-- Bytes of an entry. -/
def size : Nat := 2 ^ c.entrySizeExp

theorem size_pos : 0 < c.size := Nat.two_pow_pos _

theorem size_eq_blocks : 2 ^ c.entryBlocksExp * 2 ^ c.blockSizeExp = c.size := by
  rw [← Nat.pow_add, size, entryBlocksExp, Nat.sub_add_cancel]
  exact le_max_left ..

theorem size_eq_pages : pageSize * 2 ^ c.entryPagesExp = c.size := by
  rw [show pageSize = 2 ^ pageBits from rfl, ← pow_add, size, entryPagesExp, add_comm,
    Nat.sub_add_cancel]
  exact le_max_right ..

theorem index_fst : (c.index x).1 = x / c.size := by
  have : c.blockSizeExp + c.entryBlocksExp = c.entrySizeExp :=
    Nat.add_sub_cancel' (Nat.le_max_left ..)
  simp only [index, shiftRight_eq_div_pow, this, size]

/-- The page of an address is in the entry of the address. -/
theorem index_page : (c.index (pageOf x).1).1 = x / c.size := by
  have back : (pageOf x).1 / pageSize = x / pageSize := by
    simp only [pageOf, pageSize]
    omega
  rw [index_fst, ← size_eq_pages, ← Nat.div_div_eq_div_mul, back, Nat.div_div_eq_div_mul]

/-- Where an address is in its entry. -/
theorem offset_page : (c.index (pageOf x).1).2 * pageSize + (pageOf x).2 = x % c.size := by
  have back : (pageOf x).1 / pageSize = x / pageSize := by
    simp only [pageOf, pageSize]
    omega
  have page : (c.index (pageOf x).1).2 = x / pageSize % 2 ^ c.entryPagesExp := by
    simp only [index, shiftRight_eq_div_pow]
    rw [show 2 ^ pageBits = pageSize from rfl, back]
  rw [page, ← size_eq_pages, mod_mul, add_comm, mul_comm]
  rfl

/-- Addresses of one page are next to each other in one entry. -/
theorem same_page (hi : (pageOf x).2 + i < pageSize) :
    (x + i) / c.size = x / c.size ∧ (x + i) % c.size = x % c.size + i := by
  have page : (x + i) / pageSize = x / pageSize ∧ (x + i) % pageSize = x % pageSize + i := by
    simp only [pageOf, pageSize] at hi ⊢
    omega
  rw [← size_eq_pages, ← Nat.div_div_eq_div_mul, ← Nat.div_div_eq_div_mul, Nat.mod_mul,
    Nat.mod_mul, page.1, page.2]
  omega

theorem pageOf_aligned : (pageOf x).1 % pageSize = 0 := by
  simp only [pageOf, pageSize]
  omega

theorem len_le_blocks : c.len ≤ c.blockLen * 2 ^ c.blockSizeExp := by
  have up := Nat.lt_mul_div_succ (c.len + 2 ^ c.blockSizeExp - 1) (Nat.two_pow_pos c.blockSizeExp)
  rw [mul_succ, mul_comm] at up
  rw [blockLen]
  omega

theorem extent_start : (extent c i).1 * 2 ^ c.blockSizeExp = i * c.size := by
  rw [extent, shiftLeft_eq, mul_assoc, size_eq_blocks]

theorem extent_inside (inside : i * c.size < c.len) : ¬ (extent c i).1 ≥ c.blockLen := by
  intro ge
  have := mul_le_mul_right (2 ^ c.blockSizeExp) ge
  rw [extent_start] at this
  have := c.len_le_blocks
  omega

theorem extent_le : (extent c i).2 ≤ c.size := by
  simp only [extent, shiftLeft_eq, ← size_eq_blocks]
  apply Nat.mul_le_mul_right
  exact Nat.sub_le_iff_le_add'.mpr (Nat.min_le_left ..)

/-- The blocks of an entry hold all its bytes that the object has. -/
theorem extent_covers {o : Nat} (ho : o < c.size) (inside : i * c.size + o < c.len) :
    o < (extent c i).2 := by
  have start : i <<< c.entryBlocksExp * 2 ^ c.blockSizeExp = i * c.size := by
    rw [shiftLeft_eq, mul_assoc, size_eq_blocks]
  have blocks := c.len_le_blocks
  simp only [extent, shiftLeft_eq _ c.blockSizeExp]
  rcases le_total (i <<< c.entryBlocksExp + 2 ^ c.entryBlocksExp) c.blockLen with le | le
  · rw [Nat.min_eq_left le, Nat.add_sub_cancel_left, size_eq_blocks]
    exact ho
  · rw [Nat.min_eq_right le, Nat.sub_mul, start]
    omega

end Config

/-- The entry of an index. -/
def State.entry (s : State) (i : Nat) : Option Entry := s.pages.lookup 4 i

/-- What the cache and the store show of the object. -/
def State.view (c : Config) (s : State) (x : Nat) : Byte :=
  match s.entry (x / c.size) with
  | some e => s.mem e (x % c.size)
  | none => s.store x

/-- The tree counts at most `slack` empty slots in a node, the only reference to
an entry is `held`, and the array `m` is what is shown. -/
structure Inv (c : Config) (slack : Nat) (held : Option Entry) (s : State) (m : Nat →
    Byte) : Prop where
  counted : s.pages.Counted 64 4 slack
  range {i : Nat} {e : Entry} (found : s.entry i = some e) : i * c.size < c.len ∧ e < s.next
  distinct {i j : Nat} {e : Entry} (found : s.entry i = some e) (found' : s.entry j = some e) :
    i = j
  flags {i : Nat} {e : Entry} (found : s.entry i = some e) : s.flags e = 0 ∨
    s.flags e = Flags.dirty
  refs (e : Entry) : s.refcount e = if held = some e then 1 else 0
  shows {x : Nat} (hx : x < c.len) : s.view c x = m x
  clean {x : Nat} {e : Entry} (hx : x < c.len) (found : s.entry (x / c.size) = some e)
    (clean : s.flags e = 0) : s.store x = s.mem e (x % c.size)

variable {target source : Nat → Byte} {start : Nat} {old : Option Entry}

section Operations

variable {c : Config} {slack len addr n : Nat} {held : Option Entry} {s : State} {m : Nat → Byte}
  {x i : Nat} {e : Entry}

theorem overwrite_inside (lo : start ≤ x)
    (hi : x < start + len) : overwrite target start len source x = source (x - start) :=
  if_pos ⟨lo, hi⟩

theorem overwrite_outside (out : ¬ (start ≤ x ∧ x < start + len)) :
    overwrite target start len source x = target x :=
  if_neg out

theorem len_lt : c.len < usizeSize := by
  have := c.fits
  have := Nat.two_pow_pos (max c.blockSizeExp pageBits)
  omega

theorem index_small (hx : x < c.len) : x / c.size < usizeSize :=
  (div_le_self ..).trans_lt (hx.trans len_lt)

theorem Inv.small (inv : Inv c slack held s m) (found : s.entry i = some e) : i < usizeSize :=
  (Nat.le_mul_of_pos_right i c.size_pos).trans_lt ((inv.range found).1.trans len_lt)

theorem getEntry_run (counted : s.pages.Counted 64 4 slack) (hi : i < usizeSize) :
    getEntry i s = some (.ok (s.entry i), s) := by
  rw [getEntry, get_bind, get_run counted hi]
  rfl

/-- The index and the offset of an address put together. -/
theorem address_eq (x : Nat) : x / c.size * c.size + x % c.size = x := by
  rw [mul_comm]
  exact div_add_mod x c.size

theorem readFromDisk_run (inside : i * c.size < c.len) :
    ∃ bytes, readFromDisk c i e s = some (.ok (), { s with mem := update s.mem e bytes }) ∧
      ∀ x, x < c.len → x / c.size = i → bytes (x % c.size) = s.store x := by
  have entryBytes : pageSize <<< c.entryPagesExp = c.size := by
    rw [shiftLeft_eq, c.size_eq_pages]
  have read : ∀ x, x < c.len → x / c.size = i →
      overwrite (s.mem e) 0 (extent c i).2
        (fun j => s.store ((extent c i).1 <<< c.blockSizeExp + j)) (x % c.size) = s.store x := by
    rintro x hx rfl
    have covers := c.extent_covers (mod_lt x c.size_pos) (address_eq x ▸ hx)
    rw [overwrite_inside (Nat.zero_le _) (by omega), Nat.shiftLeft_eq, c.extent_start,
      Nat.sub_zero, address_eq]
  unfold readFromDisk
  simp only [if_neg (c.extent_inside inside), get_bind, setMem, modify_bind, entryBytes,
    c.extent_start]
  split
  · simp only [get_bind, modify_run, update_idem, update_self]
    refine ⟨_, rfl, ?_⟩
    rintro x hx rfl
    rw [overwrite_outside, read x hx rfl]
    have := address_eq (c := c) x
    omega
  · exact ⟨_, rfl, read⟩

theorem writeToDisk_run (inside : i * c.size < c.len) :
    ∃ store, writeToDisk c i e s = some (.ok (), { s with store := store }) ∧
      ∀ x, x < c.len → store x = if x / c.size = i then s.mem e (x % c.size)
        else s.store x := by
  unfold writeToDisk
  simp only [if_neg (c.extent_inside inside)]
  refine ⟨_, rfl, ?_⟩
  intro x hx
  rw [shiftLeft_eq, c.extent_start]
  split
  · rename_i here
    subst here
    have covers := c.extent_covers (mod_lt x c.size_pos) (address_eq x ▸ hx)
    have split := address_eq (c := c) x
    rw [overwrite_inside (by omega) (by omega)]
    congr 1
    omega
  · rename_i there
    apply overwrite_outside
    rintro ⟨lo, hi⟩
    apply there
    have le := c.extent_le (i := i)
    apply Nat.div_eq_of_lt_le lo
    rw [Nat.succ_mul]
    omega

variable {f : BitVec 32}

theorem not_reading (h : f = 0 ∨ f = Flags.dirty) : ¬ f &&& Flags.reading ≠ 0 := by
  rcases h with rfl | rfl <;> decide

theorem getPage_run (inv : Inv c slack held s m) (hx : x < c.len) :
    getPage c (pageOf x).1 s = match s.entry (x / c.size) with
      | none => some (.ok none, s)
      | some e => some (.ok (some (e, (c.index (pageOf x).1).2 * pageSize)),
          { s with refcount := update s.refcount e (s.refcount e + 1) }) := by
  have found := getEntry_run inv.counted (index_small hx)
  simp only [getPage, Config.pageOf_aligned, debugAssert_true, lift_some_bind, c.index_page]
  rw [bind_of_ok found]
  cases entry : s.entry (x / c.size) with
  | none => rfl
  | some e =>
    simp only [get_bind, if_neg (not_reading (inv.flags entry)), addRef, modify_bind, pure_run]

theorem Inv.addRef (inv : Inv c slack none s m) (e : Entry) :
    Inv c slack (some e) { s with refcount := update s.refcount e (s.refcount e + 1) } m :=
      { inv with
  refs := by
    intro k
    dsimp only
    rw [update_apply, inv.refs, inv.refs]
    simp only [reduceCtorEq, if_false, Option.some.injEq, eq_comm] }

theorem Inv.dropRef (inv : Inv c slack (some e) s m) :
    Inv c slack none { s with refcount := update s.refcount e (s.refcount e - 1) } m := { inv with
  refs := by
    intro k
    dsimp only
    rw [update_apply, inv.refs, inv.refs]
    by_cases hk : k = e
    · simp [hk]
    · simp [Ne.symm hk] }

variable {pages : RadixTree Entry}

/-- A new entry that was read from the store. -/
theorem Inv.insert (inv : Inv c slack none s m) (inside : i * c.size < c.len)
    (absent : s.entry i = none) (counted : pages.Counted 64 4 slack)
    (lookups : ∀ k, pages.lookup 4 k = if k = i then some s.next else s.entry k)
    {bytes : Nat → Byte} (read : ∀ x, x < c.len → x / c.size = i → bytes (x % c.size) = s.store x) :
    Inv c slack (some s.next) { s with
      pages := pages, flags := update s.flags s.next 0
      refcount := update s.refcount s.next 1
      mem := update s.mem s.next bytes, next := s.next + 1 } m := by
  have old : ∀ {k e}, s.entry k = some e → e ≠ s.next := fun found => (inv.range found).2.ne
  have cases_entry : ∀ {k e}, pages.lookup 4 k = some e → (k = i ∧ e = s.next) ∨
      s.entry k = some e := by
    intro k e found
    rw [lookups] at found
    split at found
    · rename_i here
      exact .inl ⟨here, (Option.some.inj found).symm⟩
    · exact .inr found
  constructor
  · exact counted
  · intro k e found
    obtain ⟨rfl, rfl⟩ | found := cases_entry found
    · exact ⟨inside, lt_succ_self _⟩
    · exact ⟨(inv.range found).1, lt_succ_of_lt (inv.range found).2⟩
  · intro k k' e found found'
    obtain ⟨rfl, rfl⟩ | found := cases_entry found
    · obtain ⟨rfl, -⟩ | found' := cases_entry found'
      · rfl
      · exact absurd rfl (old found')
    · obtain ⟨-, rfl⟩ | found' := cases_entry found'
      · exact absurd rfl (old found)
      · exact inv.distinct found found'
  · intro k e found
    obtain ⟨rfl, rfl⟩ | found := cases_entry found
    · left
      exact update_self ..
    · dsimp only
      rw [update_of_ne (old found)]
      exact inv.flags found
  · intro k
    dsimp only
    rw [update_apply, inv.refs]
    simp [eq_comm]
  · intro x hx
    rw [← inv.shows hx]
    simp only [view, entry, lookups]
    by_cases here : x / c.size = i
    · rw [if_pos here, here, show s.pages.lookup 4 i = none from absent]
      simp only [update_self]
      exact read x hx here
    · rw [if_neg here]
      cases found : s.entry (x / c.size) with
      | none =>
        rw [entry] at found
        rw [found]
      | some e =>
        have ne := old found
        rw [entry] at found
        simp only [found, update_of_ne ne]
  · intro x e hx found clean
    obtain ⟨here, rfl⟩ | found := cases_entry found
    · dsimp only
      rw [update_self]
      exact (read x hx here).symm
    · dsimp only at clean ⊢
      rw [update_of_ne (old found)] at clean ⊢
      exact inv.clean hx found clean

/-- The allocation of an entry that is absent. -/
theorem alloc_miss (miss : getPage c addr s = some (.ok none, s))
    (inside : (c.index addr).1 * c.size < c.len)
    (inserted : s.pages.insert 64 4 (c.index addr).1 s.next = some (old, pages)) :
    ∃ bytes, alloc c addr s = some (.ok (s.next, (c.index addr).2 * pageSize), { s with
        pages := pages, flags := update s.flags s.next 0
        refcount := update s.refcount s.next 1
        mem := update s.mem s.next bytes, next := s.next + 1 }) ∧
      ∀ x, x < c.len → x / c.size = (c.index addr).1 → bytes (x % c.size) = s.store x := by
  obtain ⟨bytes, read, same⟩ := readFromDisk_run (e := s.next) (s := { s with
    next := s.next + 1, refcount := update s.refcount s.next 0
    flags := update s.flags s.next Flags.reading, pages := pages }) inside
  refine ⟨bytes, ?_, same⟩
  rw [alloc, bind_of_ok miss]
  simp [pageAlloc, setFlags, insertEntry, addRef, inserted, bind_of_ok (handle_of_ok read),
    update_idem]

theorem alloc_spec (inv : Inv c slack none s m) (room : slack ≤ 239) (hx : x < c.len) :
    ∃ s' e, alloc c (pageOf x).1 s = some (.ok (e, (c.index (pageOf x).1).2 * pageSize), s') ∧
      s'.entry (x / c.size) = some e ∧ Inv c slack (some e) s' m := by
  have page := getPage_run inv hx
  cases entry : s.entry (x / c.size) with
  | some e =>
    rw [entry] at page
    refine ⟨_, e, ?_, ?_, inv.addRef e⟩
    · rw [alloc, bind_of_ok page]
      rfl
    · exact entry
  | none =>
    rw [entry] at page
    have inside : x / c.size * c.size < c.len := (div_mul_le_self ..).trans_lt hx
    obtain ⟨pages, inserted, counted, lookups⟩ := insert_spec inv.counted
      (index_small hx) (by decide) (by decide) (index_small hx)
        (inv.counted.roomy (by omega)) s.next
    rw [← c.index_page] at inside inserted
    obtain ⟨bytes, run, same⟩ := alloc_miss page inside inserted
    rw [c.index_page] at inside same
    exact ⟨_, s.next, run, (lookups _).trans (if_pos rfl),
      inv.insert inside entry counted lookups same⟩

/-- The bytes of one page, as the loops find them in its entry. -/
theorem Inv.piece (inv : Inv c slack held s m) (found : s.entry (x / c.size) = some e)
    (page : (pageOf x).2 + n ≤ pageSize) (inside : x + n ≤ c.len) :
    (List.range n).map (fun i => s.mem e ((c.index (pageOf x).1).2 * pageSize + (pageOf x).2 + i)) =
      (range' x n).map m := by
  rw [range'_eq_map_range, map_map]
  apply map_congr_left
  intro i hi
  have hi := mem_range.mp hi
  obtain ⟨same, offset⟩ := c.same_page (x := x) (i := i) (by omega)
  rw [comp_apply, ← inv.shows (by omega), c.offset_page]
  simp only [view, same, found, offset]

theorem copyLen_pos {progress : Nat} (more : progress < len) :
    0 < min (pageSize - (pageOf x).2) (len - progress) := by
  simp only [pageOf, pageSize]
  omega

theorem copyLen_page : (pageOf x).2 + min (pageSize - (pageOf x).2) n ≤ pageSize := by
  simp only [pageOf, pageSize]
  omega

theorem readLoop_spec (room : slack ≤ 239) (inside : addr + len ≤ c.len)
    (turns : Nat) : ∀ (progress : Nat) {s : State}, Inv c slack none s m →
    len ≤ progress + turns →
    ∃ s', readLoop c addr len turns progress s = some
      (.ok ((range' (addr + progress) (len - progress)).map m), s') ∧ Inv c slack none s' m := by
  have done {turns progress : Nat} {s : State} (inv : Inv c slack none s m)
    (no : ¬ progress < len) :
      ∃ s', readLoop c addr len turns progress s =
          some (.ok ((range' (addr + progress) (len - progress)).map m), s') ∧
        Inv c slack none s' m := by
    have none_left : len - progress = 0 := by omega
    refine ⟨s, ?_, inv⟩
    cases turns <;> rw [readLoop, if_neg no, none_left] <;> rfl
  induction turns with
  | zero => exact fun progress s inv enough => done inv (by omega)
  | succ turns ih =>
    intro progress s inv enough
    by_cases more : progress < len
    · generalize hn : min (pageSize - (pageOf (addr + progress)).2) _ = n
      have pos : 0 < n := hn ▸ copyLen_pos more
      have page := hn ▸ copyLen_page
      obtain ⟨s₁, e, run, found, inv₁⟩ :=
        alloc_spec inv room (x := addr + progress) (by omega)
      have piece := inv₁.piece found page (by omega)
      obtain ⟨s₂, rest, inv₂⟩ := ih (progress + n) inv₁.dropRef (by omega)
      refine ⟨s₂, ?_, inv₂⟩
      have split : List.range' (addr + progress) (len - progress) =
          range' (addr + progress) n ++ range' (addr + (progress + n)) (len - (progress + n)) := by
        rw [show addr + (progress + n) = addr + progress + 1 * n by omega, List.range'_append]
        congr 1
        omega
      simp [readLoop, if_pos more, hn, bind_of_ok run, PageCache.dropRef, bind_of_ok rest, piece,
        split, map_append]
    · exact done inv more

theorem dirty_or (h : f = 0 ∨ f = Flags.dirty) : f ||| Flags.dirty = Flags.dirty := by
  rcases h with rfl | rfl <;> decide

/-- New bytes in one page of an entry that is now dirty. -/
theorem Inv.write (inv : Inv c slack held s m) (found : s.entry (x / c.size) = some e)
    (page : (pageOf x).2 + n ≤ pageSize) (data : Nat → Byte) :
    Inv c slack held { s with
      mem := update s.mem e (overwrite (s.mem e) (x % c.size) n data)
      flags := update s.flags e Flags.dirty } (overwrite m x n data) := by
  have inside : ∀ {y}, x ≤ y ∧ y < x + n → y / c.size = x / c.size ∧
      y % c.size = x % c.size + (y - x) := by
    rintro y ⟨lo, hi⟩
    have := c.same_page (x := x) (i := y - x) (by omega)
    rwa [Nat.add_sub_cancel' lo] at this
  refine { inv with flags := ?_, shows := ?_, clean := ?_ }
  · intro k e' found'
    by_cases he : e' = e
    · subst he
      right
      exact update_self ..
    · dsimp only
      rw [update_of_ne he]
      exact inv.flags found'
  · intro y hy
    have old := inv.shows hy
    by_cases same : y / c.size = x / c.size
    · have hy' := address_eq (c := c) y
      have hx' := address_eq (c := c) x
      rw [same] at hy'
      simp only [view, entry, same] at old ⊢
      rw [show s.pages.lookup 4 (x / c.size) = some e from found] at old ⊢
      simp only [update_self, overwrite] at old ⊢
      by_cases here : x ≤ y ∧ y < x + n
      · rw [if_pos here, if_pos (by omega)]
        congr 1
        omega
      · rw [if_neg here, if_neg (by omega)]
        exact old
    · rw [overwrite_outside fun here => same (inside here).1, ← old]
      simp only [view]
      cases other : s.entry (y / c.size) with
      | none =>
        rw [entry] at other
        simp only [entry, other]
      | some e' =>
        have ne : e' ≠ e := by
          rintro rfl
          exact same (inv.distinct other found)
        rw [entry] at other
        simp only [entry, other, update_of_ne ne]
  · intro y e' hy found' clean
    dsimp only at clean ⊢
    have ne : e' ≠ e := by
      rintro rfl
      rw [update_self] at clean
      cases clean
    rw [update_of_ne ne] at clean ⊢
    exact inv.clean hy found' clean

theorem markDirty_run (counted : s.pages.Counted 64 4 slack) (hx : x < c.len)
    (found : s.entry (x / c.size) = some e) (flags : s.flags e = 0 ∨ s.flags e = Flags.dirty) :
    markDirty c (pageOf x).1 s = some
      (.ok (), { s with flags := update s.flags e Flags.dirty }) := by
  have run := getEntry_run counted (index_small hx)
  simp [markDirty, Config.pageOf_aligned, c.index_page, bind_of_ok run, found, setFlags,
    dirty_or flags]

theorem overwrite_append (start n k : Nat) (data : Nat → Byte) (le : n ≤ k) :
    overwrite (overwrite m start n data) (start + n) (k - n) (fun i => data (n + i)) = overwrite m
      start k data := by
  funext y
  simp only [overwrite]
  by_cases lo : start ≤ y ∧ y < start + n
  · rw [if_neg (by omega), if_pos lo, if_pos (by omega)]
  · rw [if_neg lo]
    by_cases hi : start + n ≤ y ∧ y < start + n + (k - n)
    · rw [if_pos hi, if_pos (by omega)]
      congr 1
      omega
    · rw [if_neg hi, if_neg (by omega)]

theorem writeLoop_spec (data : Nat → Byte) (room : slack ≤ 239) (inside : addr + len ≤ c.len)
    (turns : Nat) : ∀ (progress : Nat) {s : State} {m : Nat → Byte},
    Inv c slack none s m → len ≤ progress + turns →
    ∃ s', writeLoop c addr len data turns progress s = some (.ok (), s') ∧ Inv c slack none s'
      (overwrite m (addr + progress) (len - progress) fun i => data (progress + i)) := by
  have done {turns progress : Nat} {s : State} {m : Nat → Byte} (inv : Inv c slack none s m)
      (no : ¬ progress < len) : ∃ s', writeLoop c addr len data turns progress s = some
        (.ok (), s') ∧
        Inv c slack none s' (overwrite m (addr + progress) (len - progress) fun i =>
            data (progress + i)) := by
    have nothing : overwrite m (addr + progress) (len - progress)
        (fun i => data (progress + i)) = m := by
      funext y
      exact overwrite_outside (by omega)
    rw [nothing]
    refine ⟨s, ?_, inv⟩
    cases turns <;> rw [writeLoop, if_neg no] <;> rfl
  induction turns with
  | zero => exact fun progress s m inv enough => done inv (by omega)
  | succ turns ih =>
    intro progress s m inv enough
    by_cases more : progress < len
    · generalize hn : min (pageSize - (pageOf (addr + progress)).2) _ = n
      have pos : 0 < n := hn ▸ copyLen_pos more
      have page := hn ▸ copyLen_page
      have le := hn ▸ min_le_right ..
      have hx : addr + progress < c.len := by omega
      obtain ⟨s₁, e, run, found, inv₁⟩ := alloc_spec inv room hx
      have written := inv₁.write found page fun i => data (progress + i)
      obtain ⟨s₂, rest, inv₂⟩ := ih (progress + n) written.dropRef (by omega)
      refine ⟨s₂, ?_, ?_⟩
      · have mark := markDirty_run (s := { s₁ with
          mem := update s₁.mem e (overwrite (s₁.mem e) ((addr + progress) % c.size) n
            fun i => data (progress + i)) }) inv₁.counted hx found (inv₁.flags found)
        simp only [writeLoop, if_pos more, hn, bind_of_ok run, get_bind, setMem, PageCache.dropRef,
          modify_bind, c.offset_page, bind_of_ok mark, rest]
      · have key :=
          overwrite_append (m := m) (addr + progress) n _ (fun i => data (progress + i)) le
        rw [← key]
        simpa only [Nat.add_assoc, Nat.sub_sub] using inv₂
    · exact done inv more

/-- A dirty entry was written back. -/
theorem Inv.wroteBack (inv : Inv c slack held s m) (found : s.entry i = some e)
    {store : Nat → Byte}
    (stored : ∀ x, x < c.len → store x = if x / c.size = i then s.mem e (x % c.size) else
    s.store x) : Inv c slack held { s with flags := update s.flags e 0, store := store } m := by
  refine { inv with flags := ?_, shows := ?_, clean := ?_ }
  · intro k e' found'
    dsimp only
    by_cases he : e' = e
    · left
      rw [he, update_self]
    · rw [update_of_ne he]
      exact inv.flags found'
  · intro x hx
    have old := inv.shows hx
    rw [← old]
    simp only [view]
    cases entry : s.entry (x / c.size) with
    | none =>
      have there : x / c.size ≠ i := by
        rintro rfl
        rw [found] at entry
        cases entry
      rw [State.entry] at entry
      simp only [State.entry, entry, stored x hx, if_neg there]
    | some e' =>
      rw [State.entry] at entry
      simp only [State.entry, entry]
  · intro x e' hx found' clean
    dsimp only at clean ⊢
    rw [stored x hx]
    split
    · rename_i here
      subst here
      rw [show s.entry (x / c.size) = some e' from found'] at found
      cases found
      rfl
    · rename_i there
      have ne : e' ≠ e := by
        rintro rfl
        exact there (inv.distinct found' found)
      rw [update_of_ne ne] at clean
      exact inv.clean hx found' clean

/-- Every entry of the list is clean after the loop, and stays so. -/
theorem syncImpl_spec (l : List Nat) : ∀ {s : State}, Inv c slack none s m →
    (∀ i ∈ l, i < usizeSize) →
    ∃ s', syncImpl c l s = some (.ok (), s') ∧ Inv c slack none s' m ∧ s'.pages = s.pages ∧
      (∀ i ∈ l, ∀ e, s.entry i = some e → s'.flags e = 0) ∧ ∀ e, s.flags e = 0 →
        s'.flags e = 0 := by
  induction l with
  | nil => exact fun inv _ => ⟨_, rfl, inv, rfl, nofun, fun _ clean => clean⟩
  | cons i rest ih =>
    intro s inv small
    have look := getEntry_run inv.counted (small i mem_cons_self)
    have later : ∀ j ∈ rest, j < usizeSize := fun j hj => small j (mem_cons_of_mem _ hj)
    cases found : s.entry i with
    | none =>
      obtain ⟨s', run, inv', pages, cleaned, stays⟩ := ih inv later
      refine ⟨s', ?_, inv', pages, forall_mem_cons.mpr ⟨?_, cleaned⟩, stays⟩
      · rw [syncImpl, bind_of_ok look, found]
        exact run
      · rw [found]
        nofun
    | some e =>
      rcases inv.flags found with clean | dirty
      · obtain ⟨s', run, inv', pages, cleaned, stays⟩ := ih inv later
        refine ⟨s', ?_, inv', pages, forall_mem_cons.mpr ⟨?_, cleaned⟩, stays⟩
        · rw [syncImpl, bind_of_ok look, found]
          simp only [get_bind, clean]
          exact run
        · rw [found]
          rintro _ ⟨rfl⟩
          exact stays e clean
      · obtain ⟨store, wrote, stored⟩ := writeToDisk_run
          (s := { s with flags := update s.flags e 0 }) (inv.range found).1
        have inv₁ := inv.wroteBack found stored
        have again := getEntry_run inv₁.counted (small i mem_cons_self)
        obtain ⟨s', run, inv', pages, cleaned, stays⟩ := ih inv₁ later
        refine ⟨s', ?_, inv', pages, forall_mem_cons.mpr ⟨?_, cleaned⟩, ?_⟩
        · rw [syncImpl, bind_of_ok look, found]
          simp only [get_bind, dirty, setFlags]
          rw [if_pos (by decide), modify_bind, bind_of_ok (handle_of_ok wrote), bind_of_ok again]
          simp only [entry] at found
          simp only [entry, found, lift_some_bind, modify_bind, update_idem]
          exact run
        · rw [found]
          rintro _ ⟨rfl⟩
          exact stays e (update_self ..)
        · intro e' clean
          apply stays
          dsimp only
          by_cases he : e' = e
          · rw [he, update_self]
          · rw [update_of_ne he]
            exact clean

/-- Once all entries are clean, the store holds the array. -/
theorem Inv.store_eq (inv : Inv c slack held s m)
    (clean : ∀ i e, s.entry i = some e → s.flags e = 0) (hx : x < c.len) : s.store x = m x := by
  rw [← inv.shows hx]
  simp only [view]
  cases found : s.entry (x / c.size) with
  | none => rfl
  | some e => exact inv.clean hx found (clean _ e found)

theorem dirtyAmong_run (counted : s.pages.Counted 64 4 slack) (l : List Nat)
    (small : ∀ i ∈ l, i < usizeSize) :
    dirtyAmong l s = some (.ok (l.filter fun i => (s.entry i).any fun ent =>
      s.flags ent &&& Flags.dirty ≠ 0), s) := by
  induction l with
  | nil => rfl
  | cons i rest ih =>
    have look := getEntry_run counted (small i mem_cons_self)
    have later := ih fun j hj => small j (mem_cons_of_mem _ hj)
    rw [dirtyAmong, bind_of_ok look, get_bind, bind_of_ok later, pure_run, filter_cons]

theorem not_dirty (h : f = 0 ∨ f = Flags.dirty) (clean : ¬ f &&& Flags.dirty ≠ 0) : f = 0 := by
  rcases h with rfl | rfl
  · rfl
  · exact absurd (by decide) clean

theorem sync_spec (inv : Inv c slack none s m) (addr len : Nat) :
    ∃ s', sync c addr len s = some (.ok (), s') ∧ Inv c slack none s' m ∧
      (addr = 0 ∧ len = c.len → ∀ x, x < c.len → s'.store x = m x) := by
  have small : ∀ i ∈ range' (c.index addr).1
      ((c.index (min (addr + (len - 1)) c.len)).1 + 1 - (c.index addr).1), i < usizeSize := by
    intro i hi
    have hi := mem_range'_1.mp hi
    have top : (c.index (min (addr + (len - 1)) c.len)).1 ≤ c.len := by
      rw [c.index_fst]
      exact (div_le_self ..).trans (min_le_right ..)
    have := len_lt (c := c)
    omega
  have collected := dirtyAmong_run inv.counted _ small
  obtain ⟨s', run, inv', pages, cleaned, stays⟩ := syncImpl_spec _ inv fun i hi =>
    small i (mem_filter.mp hi).1
  refine ⟨s', ?_, inv', ?_⟩
  · rw [sync, bind_of_ok collected]
    exact run
  · rintro ⟨rfl, rfl⟩ x hx
    apply inv'.store_eq _ hx
    intro i e found
    have before : s.entry i = some e := by rwa [entry, pages] at found
    by_cases dirty : s.flags e &&& Flags.dirty ≠ 0
    · apply cleaned i _ e before
      rw [mem_filter, mem_range'_1]
      refine ⟨⟨?_, ?_⟩, by simpa [before] using dirty⟩
      · rw [c.index_fst, Nat.zero_div]
        exact zero_le i
      · have inside := (inv.range before).1
        rw [c.index_fst, c.index_fst, Nat.zero_div, Nat.zero_add, Nat.zero_add,
          Nat.min_eq_left (by omega)]
        have : i ≤ (c.len - 1) / c.size := (le_div_iff_mul_le c.size_pos).mpr (by omega)
        omega
    · exact stays e (not_dirty (inv.flags before) dirty)

theorem syncAll_spec (inv : Inv c slack none s m) : ∃ s', syncAll c s = some (.ok (), s') ∧
    Inv c slack none s' m ∧
      ∀ x, x < c.len → s'.store x = m x := by
  have listed {p : Nat × Entry → Bool} {i : Nat}
    (hi : i ∈ ((s.pages.iter 4).filter p).map Prod.fst) :
      ∃ e, s.entry i = some e := by
    obtain ⟨⟨k, e⟩, he, rfl⟩ := mem_map.mp hi
    exact ⟨e, mem_iter.mp (mem_filter.mp he).1⟩
  obtain ⟨s', run, inv', pages, cleaned, stays⟩ := syncImpl_spec _ inv fun i hi => by
    obtain ⟨e, found⟩ := listed hi
    exact inv.small found
  refine ⟨s', ?_, inv', fun x hx => inv'.store_eq ?_ hx⟩
  · exact run
  · intro i e found
    have before : s.entry i = some e := by rwa [entry, pages] at found
    by_cases dirty : s.flags e &&& Flags.dirty ≠ 0
    · apply cleaned i _ e before
      exact mem_map.mpr
        ⟨(i, e), mem_filter.mpr ⟨mem_iter.mpr before, by simpa using dirty⟩, rfl⟩
    · exact stays e (not_dirty (inv.flags before) dirty)

/-- A clean entry was taken out. -/
theorem Inv.evict (inv : Inv c slack held s m) (found : s.entry i = some e) (clean : s.flags e = 0)
    {slack' : Nat} (counted : pages.Counted 64 4 slack')
    (lookups : ∀ k, pages.lookup 4 k = if k = i then none else s.entry k) :
    Inv c slack' held { s with pages := pages } m := by
  have kept : ∀ {k e}, pages.lookup 4 k = some e → s.entry k = some e := by
    intro k e here
    rw [lookups] at here
    split at here
    · cases here
    · exact here
  constructor
  · exact counted
  · exact fun here => inv.range (kept here)
  · exact fun here here' => inv.distinct (kept here) (kept here')
  · exact fun here => inv.flags (kept here)
  · exact inv.refs
  · intro x hx
    rw [← inv.shows hx]
    simp only [view, entry, lookups]
    by_cases here : x / c.size = i
    · subst here
      have same := inv.clean hx found clean
      rw [entry] at found
      rw [if_pos rfl, found]
      exact same
    · rw [if_neg here]
  · exact fun hx here => inv.clean hx (kept here)

theorem removeAll_spec (l : List Nat) : ∀ {slack : Nat} {s : State}, Inv c slack none s m →
    l.Nodup → (∀ i ∈ l, ∃ e, s.entry i = some e ∧ s.flags e = 0) →
    ∃ s' slack', removeAll l s = some (.ok (), s') ∧ Inv c slack' none s' m := by
  induction l with
  | nil => exact fun inv _ _ => ⟨_, _, rfl, inv⟩
  | cons i rest ih =>
    intro slack s inv nodup present
    obtain ⟨first, nodup⟩ := nodup_cons.mp nodup
    obtain ⟨e, found, clean⟩ := present i mem_cons_self
    obtain ⟨pages, removed, counted, lookups⟩ := remove_present inv.counted
      (inv.small found) (le_succ slack) found (.inl (lt_succ_self slack))
    obtain ⟨s', slack', run, inv'⟩ := ih (inv.evict found clean counted lookups) nodup (by
      intro j hj
      obtain ⟨e', found', clean'⟩ := present j (mem_cons_of_mem _ hj)
      refine ⟨e', ?_, clean'⟩
      rw [entry, lookups, if_neg]
      · exact found'
      · rintro rfl
        exact first hj)
    refine ⟨s', slack', ?_, inv'⟩
    rw [removeAll]
    simp only [removeEntry, bind_bind, get_bind, removed, lift_some_bind, modify_bind]
    exact run

theorem evictable_clean (h : f = 0 ∨ f = Flags.dirty)
    (free : f &&& (Flags.dirty ||| Flags.writing ||| Flags.reading) = 0) : f = 0 := by
  rcases h with rfl | rfl
  · rfl
  · exact absurd free (by decide)

theorem flush_spec (inv : Inv c slack none s m) :
    ∃ s' slack', flush s = some (.ok (), s') ∧ Inv c slack' none s' m := by
  have nodup : (((s.pages.iter 4).filter fun x => s.evictable x.2).map Prod.fst).Nodup :=
    (iter_keys_nodup s.pages).sublist (filter_sublist.map _)
  obtain ⟨s', slack', run, inv'⟩ := removeAll_spec _ inv nodup (by
    intro i hi
    obtain ⟨⟨k, e⟩, he, rfl⟩ := mem_map.mp hi
    obtain ⟨listed, free⟩ := mem_filter.mp he
    have found := mem_iter.mp listed
    exact ⟨e, found, evictable_clean (inv.flags found) (of_decide_eq_true free).1⟩)
  refine ⟨s', slack', ?_, inv'⟩
  exact run

theorem checkBounds_run (inside : addr + len ≤ c.len) : checkBounds c addr len s = some
    (.ok (), s) := by
  have := len_lt (c := c)
  rw [checkBounds, if_pos ⟨by omega, inside⟩]
  rfl

/-- What holds between two calls. -/
def Shows (c : Config) (s : State) (m : Nat → Byte) : Prop := ∃ slack, Inv c slack none s m

theorem Shows.within (shown : Shows c s m) (within : s.pages.Within 4 239) :
    Inv c 239 none s m := by
  obtain ⟨slack, inv⟩ := shown
  exact { inv with counted := inv.counted.within within }

theorem Shows.call {call : Call} (shown : Shows c s m) (inside : call.InRange c)
    (meets : call.Meets s) :
    ∃ s', call.exec c s = some (.ok (call.onArray m).1, s') ∧ Shows c s' (call.onArray m).2 ∧
      (call.SyncsWhole c → ∀ x, x < c.len → s'.store x = m x) := by
  cases call with
  | readBytes addr len =>
    obtain ⟨s', run, inv⟩ := readLoop_spec le_rfl inside len 0 (shown.within meets) (by omega)
    refine ⟨s', ?_, ⟨_, inv⟩, by rintro (⟨⟨⟩⟩ | ⟨⟨⟩⟩)⟩
    rw [Call.exec, readBytes, bind_of_ok (checkBounds_run inside), run]
    rfl
  | writeBytes addr wdata =>
    obtain ⟨s', run, inv⟩ := writeLoop_spec (fun i => wdata.getD i 0) le_rfl inside
      wdata.length 0 (shown.within meets) (by omega)
    refine ⟨s', ?_,
      ⟨_, by simpa [Call.onArray] using inv⟩, by rintro (⟨⟨⟩⟩ | ⟨⟨⟩⟩)⟩
    rw [Call.exec, writeBytes, bind_bind, bind_of_ok (checkBounds_run inside), bind_of_ok run]
    rfl
  | writeZeroes addr len =>
    obtain ⟨s', run, inv⟩ :=
      writeLoop_spec (fun _ => 0) le_rfl inside len 0 (shown.within meets) (by omega)
    refine ⟨s', ?_,
      ⟨_, by simpa [Call.onArray] using inv⟩, by rintro (⟨⟨⟩⟩ | ⟨⟨⟩⟩)⟩
    rw [Call.exec, writeZeroes, bind_bind, bind_of_ok (checkBounds_run inside), bind_of_ok run]
    rfl
  | sync addr len =>
    obtain ⟨slack, inv⟩ := shown
    obtain ⟨s', run, inv', whole⟩ := sync_spec inv addr len
    refine ⟨s', ?_, ⟨_, inv'⟩, ?_⟩
    · rw [Call.exec, bind_of_ok run]
      rfl
    · rintro (⟨⟨⟩⟩ | here)
      cases here
      exact whole ⟨rfl, rfl⟩
  | syncAll =>
    obtain ⟨slack, inv⟩ := shown
    obtain ⟨s', run, inv', whole⟩ := syncAll_spec inv
    refine ⟨s', ?_, ⟨_, inv'⟩, fun _ => whole⟩
    rw [Call.exec, bind_of_ok run]
    rfl
  | flush =>
    obtain ⟨slack, inv⟩ := shown
    obtain ⟨s', slack', run, inv'⟩ := flush_spec inv
    refine ⟨s', ?_, ⟨_, inv'⟩, by rintro (⟨⟨⟩⟩ | ⟨⟨⟩⟩)⟩
    rw [Call.exec, bind_of_ok run]
    rfl

end Operations

theorem faithful_of_shows {c : Config} (calls : List Call) : ∀ {s : State} {m : Nat → Byte},
    Shows c s m → (∀ call ∈ calls, call.InRange c) → Conforms c calls s →
      Faithful c calls s m := by
  induction calls with
  | nil => exact fun _ _ _ => trivial
  | cons call rest ih =>
    intro s m shown inside conforms
    obtain ⟨s', run, shown', whole⟩ := shown.call (inside call mem_cons_self) conforms.1
    exact ⟨s', run, whole, ih shown' (fun call h => inside call (mem_cons_of_mem _ h))
      (conforms.2 _ s' run)⟩

theorem fresh_shows (c : Config) (store : Nat → Byte) (mem : Entry → Nat → Byte) :
    Shows c (fresh store mem) store := by
  refine ⟨0, ?_⟩
  constructor
  · nofun
  · nofun
  · nofun
  · nofun
  · exact fun _ => rfl
  · exact fun _ => rfl
  · nofun

/-- The page cache is a byte array in every sequence of conforming calls. -/
theorem page_cache_faithful (c : Config) (store : Nat → Byte) (mem : Entry → Nat → Byte)
    (calls : List Call) (inside : ∀ call ∈ calls, call.InRange c)
    (conforms : Conforms c calls (fresh store mem)) : Faithful c calls (fresh store mem) store :=
  faithful_of_shows calls (fresh_shows c store mem) inside conforms

/-- An object of one page and sixteen more, in blocks of one page. -/
def seventeenPages : Config := ⟨12, 69632, by decide⟩

theorem page_cache_faithful_write : Faithful seventeenPages [.writeBytes 3 [7], .sync 0 69632]
    (fresh (fun _ => 0) fun _ _ => 0) fun _ => 0 := by
  apply page_cache_faithful seventeenPages (fun _ => 0) (fun _ _ => 0)
  · intro call h
    simp only [mem_cons, not_mem_nil, or_false] at h
    rcases h with rfl | rfl
    · exact (by decide : 3 + 1 ≤ 69632)
    · exact (by decide : 0 + 69632 ≤ 69632)
  · exact ⟨nofun, fun _ _ _ => ⟨trivial, fun _ _ _ => trivial⟩⟩


section Eviction

variable {s : State}

/-- The tree of the entry of index 16 alone, or of no entry. -/
def tall (occ : Nat) (leaf : Option (Slots Entry)) : RadixTree Entry :=
  ⟨some ⟨1, (⟨occ, update (fun _ => none) 1 leaf⟩ : Slots (Slots Entry))⟩⟩

def leafOf (e : Entry) : Slots Entry := ⟨1, update (fun _ => none) 0 (some e)⟩

/-- The root counts one more each time. -/
theorem insert_tall (occ : Nat) (e : Entry) : (tall occ none).insert 64 4 16 e =
    (u8Succ occ).map fun occ => (none, tall occ (some (leafOf e))) := by
  have step : (tall occ none).insert 64 4 16 e = ((u8Succ occ).bind fun occ =>
      some (none, (⟨occ, update _ 1
        (some (leafOf e))⟩ : Slots (Slots Entry)))).bind fun (old, node) =>
        some (old, ⟨some ⟨1, node⟩⟩) := rfl
  rw [step, update_idem]
  cases u8Succ occ with
  | none | some occ => rfl

/-- It does not count one less when the leaf is freed. -/
theorem remove_tall (occ : Nat) (e : Entry) :
    (tall (occ + 1) (some (leafOf e))).remove 64 4 16 = some (some e, tall (occ + 1) none) := by
  have step : (tall (occ + 1) (some (leafOf e))).remove 64 4 16 = some (some e,
      ⟨some ⟨1, (⟨occ + 1, update _ 1
        none⟩ : Slots (Slots Entry))⟩⟩) := rfl
  rw [step, update_idem]
  rfl

theorem getPage_absent (absent : s.pages.get 64 4 16 = some none) :
    getPage seventeenPages 65536 s = some (.ok none, s) := by
  have look : getEntry 16 s = some (.ok none, s) := by
    rw [getEntry, get_bind, absent]
    rfl
  show (getEntry 16 >>= _) s = _
  rw [bind_of_ok look]
  rfl

/-- The first byte of the last page is read, and its entry can be evicted. -/
theorem read_absent (occ : Nat) (absent : s.pages.get 64 4 16 = some none)
    (inserted : s.pages.insert 64 4 16 s.next = some (old, tall occ (some (leafOf s.next)))) :
    ∃ bytes s', (Call.readBytes 65536 1).exec seventeenPages s = some (.ok bytes, s') ∧
      ∃ e, s'.pages = tall occ (some (leafOf e)) ∧ s'.evictable e = true := by
  obtain ⟨bytes, run, -⟩ := alloc_miss (getPage_absent absent) (by decide) inserted
  have turn : ∀ t, readLoop seventeenPages 65536 1 1 0 t = (alloc seventeenPages 65536 >>=
      fun x => get >>= fun s => dropRef x.1 >>= fun _ =>
        pure ([s.mem x.1 (x.2 + 0 + 0)] ++ [])) t := fun _ => rfl
  rw [Call.exec, readBytes, bind_of_ok (checkBounds_run (by decide)), turn, bind_of_ok run]
  refine ⟨_, _, rfl, s.next, rfl, ?_⟩
  simp only [evictable, update_self]
  decide

theorem read_panics (absent : s.pages.get 64 4 16 = some none)
    (overflow : s.pages.insert 64 4 16 s.next = none) :
    (Call.readBytes 65536 1).exec seventeenPages s = none := by
  have turn : ∀ t, readLoop seventeenPages 65536 1 1 0 t = (alloc seventeenPages 65536 >>= _) t :=
    fun _ => rfl
  rw [Call.exec, readBytes, bind_of_ok (checkBounds_run (by decide)), turn]
  apply bind_of_panic
  rw [alloc, bind_of_ok (getPage_absent absent)]
  have index : seventeenPages.index 65536 = (16, 0) := rfl
  simp only [index, pageAlloc, setFlags, insertEntry, get_bind, bind_bind, modify_bind,
    pure_andThen, overflow]
  rfl

theorem flush_evicts {occ : Nat} {e : Entry} (pages : s.pages = tall (occ + 1) (some (leafOf e)))
    (free : s.evictable e = true) :
    ∃ s', Call.flush.exec seventeenPages s = some (.ok [], s') ∧
      s'.pages = tall (occ + 1) none := by
  have listed : (tall (occ + 1) (some (leafOf e))).iter 4 = [(16, e)] := rfl
  have candidates : ([(16, e)]).filter (fun x => s.evictable x.2) = [(16, e)] := by
    simp [free]
  refine ⟨{ s with pages := tall (occ + 1) none }, ?_, rfl⟩
  simp [Call.exec, flush, get_bind, pages, listed, candidates, removeAll, removeEntry, remove_tall,
    lift_some_bind, modify_bind]

/-- Read a byte of the last page and flush, again and again. -/
def readAndFlush : Nat → List Call
  | 0 => []
  | n + 1 => .readBytes 65536 1 :: .flush :: readAndFlush n

/-- From a count of `occ` on, the tree does not survive the reads up to the 256th. -/
theorem not_faithful_tall (n : Nat) : ∀ {occ : Nat} {s : State} {m : Nat → Byte},
    s.pages = tall occ none → occ + n = 255 →
      ¬ Faithful seventeenPages (readAndFlush (n + 1)) s m := by
  induction n with
  | zero =>
    rintro occ s m pages rfl ⟨s', run, -⟩
    rw [read_panics] at run
    · cases run
    · rw [pages]
      rfl
    · rw [pages, insert_tall]
      rfl
  | succ n ih =>
    rintro occ s m pages count ⟨s₁, run₁, -, s₂, run₂, -, rest⟩
    obtain ⟨bytes, t, run, e, pages₁, free⟩ := read_absent (occ + 1)
      (by rw [pages]; rfl) (by rw [pages, insert_tall, u8Succ, if_pos (by omega)]; rfl)
    rw [run] at run₁
    cases run₁
    obtain ⟨t', run, pages₂⟩ := flush_evicts pages₁ free
    rw [run] at run₂
    cases run₂
    exact ih pages₂ (by omega) rest

theorem not_page_cache_faithful : ¬ ∀ (c : Config) (store : Nat → Byte) (mem : Entry →
    Nat → Byte)
    (calls : List Call), (∀ call ∈ calls, call.InRange c) →
    Faithful c calls (fresh store mem) store := by
  intro all
  have inside : ∀ n, ∀ call ∈ readAndFlush n, call.InRange seventeenPages := by
    intro n
    induction n with
    | zero => nofun
    | succ n ih =>
      intro call h
      simp only [readAndFlush, mem_cons] at h
      rcases h with rfl | rfl | h
      · exact (by decide : 65536 + 1 ≤ 69632)
      · trivial
      · exact ih call h
  obtain ⟨s₁, run₁, -, s₂, run₂, -, rest⟩ :=
    all seventeenPages (fun _ => 0) (fun _ _ => 0) (readAndFlush 256) (inside 256)
  obtain ⟨bytes, t, run, e, pages₁, free⟩ :=
    read_absent 1 (s := fresh (fun _ => 0) fun _ _ => 0) rfl rfl
  rw [run] at run₁
  cases run₁
  obtain ⟨t', run, pages₂⟩ := flush_evicts pages₁ free
  rw [run] at run₂
  cases run₂
  exact not_faithful_tall 254 pages₂ rfl rest

end Eviction

end BadgerOS.PageCache
