import BadgerOS.Vmm.Translation

/-!
# Page tables and a flat map

`map`, `map_mutiple`, `unmap` and `unmap_multiple` act on the translation of addresses
as on a map from addresses to addresses and flags.
-/

namespace BadgerOS.PageTable

open Fallible Tables Function List Nat

variable {k : Machine} {m : Mem} {root level vaddr paddr len v limit n flags : Nat}
  {places : Places}

/-! ### One entry -/

theorem translate_congr {m' : Mem} (same : m'.tables = m.tables) (key : Nat) :
    translate k m' root key = translate k m root key := by
  unfold translate
  rw [view_congr same]

theorem cleanupPte_run {old : PTE} (m : Mem)
    (cleans : old.valid = true → Cleans k old.ppn old.flags) :
    ∃ m', cleanupPte k old m = some (.ok (), m') ∧ m'.tables = m.tables ∧
      m'.used = m.used := by
  unfold cleanupPte
  by_cases skip : old.valid = false ∨ old.flags &&& refcountFlag = 0
  · rw [if_pos skip]
    exact ⟨m, rfl, rfl, rfl⟩
  rw [if_neg skip]
  rw [not_or] at skip
  obtain ⟨range, first⟩ := cleans (Bool.of_not_eq_false skip.1) skip.2
  have base : pageStructBase k old.ppn = some (k.pageBase old.ppn) := by
    unfold pageStructBase
    rw [debugAssert_of range]
    rfl
  rw [base, lift_some_bind, modify_bind]
  split
  · rename_i dirty
    have before : old.ppn * pageSize ≤ k.pageBase old.ppn * pageSize :=
      Nat.mul_le_mul_right _ (first dirty.1 dirty.2)
    rw [usizeSub_eq_some.mpr ⟨before, rfl⟩, lift_some_bind]
    exact ⟨_, rfl, rfl, rfl⟩
  · exact ⟨_, rfl, rfl, rfl⟩

/-- Every entry of a table can be cleaned up. -/
theorem Good.cleans {table base index : Nat} (good : Good k root m places)
    (place : places table = some (level, base)) (lt : index < ptePerPage)
    (valid : (k.arch.unpackPte (m.tables table index) level).valid = true) :
    Cleans k (k.arch.unpackPte (m.tables table index) level).ppn
      (k.arch.unpackPte (m.tables table index) level).flags := by
  generalize read : k.arch.unpackPte (m.tables table index) level = pte at valid ⊢
  have entry : slot k level (m.tables table index) = pte.entry := by rw [slot, read]
  unfold PTE.entry at entry
  rw [if_neg (by simp [valid])] at entry
  by_cases leaf : pte.leaf = true
  · rw [if_pos leaf] at entry
    exact (good.leaf place lt entry).2.cleans 0 (Nat.pow_pos (by decide))
  · rw [if_neg leaf] at entry
    intro counted
    have := (good.links place lt entry).2
    rw [read] at this
    exact absurd this counted

theorem mapRawImpl_ok {newPte : Option PTE} (law : Lawful k) (enough : Enough k limit)
    (room : m.used.length + k.pagingLevels ≤ limit) (good : Good k root m places)
    (aligned : vaddr % pageSize = 0) (bound : level < k.pagingLevels)
    (notNull : newPte.any PTE.isNull = false)
    (plain : Plain k level (slot k level ((newPte.map k.arch.packPte).getD 0))) :
    ∃ m' places', mapRawImpl k root vaddr newPte level m = some (.ok (), m') ∧
      Good k root m' places' ∧ m'.used.length ≤ m.used.length + k.pagingLevels ∧
      ∀ key' < ptePerPage ^ k.pagingLevels, translate k m' root key' =
        if key' / ptePerPage ^ level = vpn k vaddr / ptePerPage ^ level then
          meaning key' (Entry.found level (slot k level ((newPte.map k.arch.packPte).getD 0)))
        else translate k m root key' := by
  have top : level + (k.pagingLevels - (level + 1)) = k.pagingLevels - 1 := by omega
  have reach : Reach ptePerPage (view k m) (vpn k vaddr) (k.pagingLevels - 1) root
      (level + (k.pagingLevels - (level + 1))) root := by
    rw [top]
    exact .top
  obtain ⟨table, m₁, run, ⟨places₁, good₁, reach₁, same₁⟩, short⟩ :=
    descend_ok law enough (by omega) good (by omega) reach
  obtain ⟨stored, changed⟩ := good₁.store law vpn_lt reach₁ plain
  rw [← getVpnIndex_eq vaddr bound] at stored changed
  have pos : 0 < ptePerPage := by decide
  have place := reach₁.place pos good₁.placed (good₁.start vpn_lt law)
  obtain ⟨m', cleaned, tables, used⟩ := cleanupPte_run
    (m₁.setEntry table (getVpnIndex vaddr level) ((newPte.map k.arch.packPte).getD 0))
    (good₁.cleans place (mod_lt _ (by decide)))
  have grown : m'.used.length = m₁.used.length := by rw [used, Mem.setEntry, Mem.setTable]
  refine ⟨m', places₁, ?_, stored.congr tables used, by omega, ?_⟩
  · unfold mapRawImpl
    rw [debugAssert_of aligned, lift_some_bind, notNull, bind_of_ok run]
    exact cleaned
  · intro key' inside
    rw [translate_congr tables, changed key' inside, same₁ key' inside]

/-! ### Ranges of canonical addresses -/

/-- Addresses of one chunk have page numbers of one chunk. -/
theorem vpn_div_eq_iff (law : Lawful k) (bound : level < k.pagingLevels) {v' : Nat}
    (small : v < usizeSize)
    (canon : isCanonAddr k v = true) (small' : v' < usizeSize) (canon' : isCanonAddr k v' = true) :
    vpn k v / ptePerPage ^ level = vpn k v' / ptePerPage ^ level ↔
      v / (pageSize * ptePerPage ^ level) = v' / (pageSize * ptePerPage ^ level) := by
  obtain ⟨-, high⟩ := law.levels
  rw [isCanonAddr_iff law.levels small] at canon
  rw [isCanonAddr_iff law.levels small'] at canon'
  unfold vpn
  simp only [half, usizeSize, pageSize, bitsPerLevel, ptePerPage] at *
  generalize k.pagingLevels = levels at *
  interval_cases levels <;> interval_cases level <;> omega

/-- A range of canonical addresses. -/
def CanonRange (k : Machine) (start len : Nat) : Prop :=
  ∀ v, start ≤ v → v < start + len → v < usizeSize ∧ isCanonAddr k v = true

theorem CanonRange.part {start first : Nat} (h : CanonRange k start len)
    (inside : first + n ≤ len) : CanonRange k (start + first) n := by
  intro v low high
  exact h v (by omega) (by omega)

theorem CanonRange.take (h : CanonRange k vaddr len) (inside : n ≤ len) : CanonRange k vaddr n :=
  fun v low high => h v low (by omega)

/-- Such a range is in one half. -/
theorem CanonRange.length_le (law : Lawful k) (h : CanonRange k vaddr len) : len ≤ half k := by
  have small := half_le law.levels
  have canon {v : Nat} low high : v < half k ∨ usizeSize - half k ≤ v :=
    (isCanonAddr_iff law.levels (h v low high).1).mp (h v low high).2
  by_contra long
  rcases canon le_rfl (by omega) with low | high
  · have := canon (v := half k) (by omega) (by omega)
    simp only [usizeSize] at this
    omega
  · have := (h (vaddr + half k) (by omega) (by omega)).1
    omega

/-! ### A flat map -/

/-- Addresses and flags by address, after a range got others. -/
def put (f : Nat → Option (Nat × Nat)) (start len : Nat) (target : Option (Nat × Nat)) : Nat →
    Option (Nat × Nat) :=
  fun v => if start ≤ v ∧ v < start + len then target.map fun t =>
    (t.1 + (v - start), t.2) else f v

/-- The tables translate as the map does. -/
def Agrees (k : Machine) (root : Nat) (m : Mem) (f : Nat → Option (Nat × Nat)) : Prop :=
  ∀ v < usizeSize, isCanonAddr k v = true →
    (translate k m root (vpn k v)).map (fun t => (t.1 * pageSize + v % pageSize, t.2)) = f v

/-- An operation keeps the tables good and acts on the flat map, with the given number of new tables
at most. -/
def ActsOn (k : Machine) (root : Nat) (m : Mem) (op : Fallible Mem Errno Unit)
    (f : Nat → Option (Nat × Nat)) (cost : Nat) : Prop :=
  ∃ m' places', op m = some (.ok (), m') ∧ Good k root m' places' ∧ Agrees k root m' f ∧
    m'.used.length ≤ m.used.length + cost

theorem div_chunk_eq_iff {size : Nat} (pos : 0 < size) (aligned : size ∣ vaddr) :
    v / size = vaddr / size ↔ vaddr ≤ v ∧ v < vaddr + size := by
  obtain ⟨n, rfl⟩ := aligned
  rw [Nat.mul_div_cancel_left _ pos, Nat.div_eq_iff pos]
  constructor
  · rintro ⟨low, high⟩
    constructor
    · rw [Nat.mul_comm]
      exact low
    · rw [Nat.mul_comm size n]
      omega
  · rintro ⟨low, high⟩
    rw [Nat.mul_comm size n] at low high
    omega

/-- The pages and bytes from the start of a chunk on. -/
theorem vpn_offset (bound : level < k.pagingLevels)
    (aligned : pageSize * ptePerPage ^ level ∣ vaddr)
    (inside : vaddr ≤ v ∧ v < vaddr + pageSize * ptePerPage ^ level) :
    vpn k v % ptePerPage ^ level * pageSize + v % pageSize = v - vaddr := by
  obtain ⟨n, rfl⟩ := aligned
  obtain ⟨r, rfl⟩ := Nat.exists_eq_add_of_le inside.1
  have small : r / pageSize < ptePerPage ^ level := Nat.div_lt_of_lt_mul (by omega)
  have split : pageSize * ptePerPage ^ level * n + r = pageSize * (ptePerPage ^ level * n) + r := by
    rw [Nat.mul_assoc]
  unfold vpn
  rw [Nat.add_sub_cancel_left, mod_mod_of_dvd _ (Nat.pow_dvd_pow _ bound.le), split,
    mul_add_div (by decide), mul_add_mod, mod_eq_of_lt small, mul_add_mod]
  exact div_add_mod' r pageSize

variable {f : Nat → Option (Nat × Nat)}

/-- The flat map gets what the entry for a chunk has. -/
theorem mapRawImpl_agrees {target : Option (Nat × Nat)} (newPte : Option PTE) (law : Lawful k)
    (enough : Enough k limit) (room : m.used.length + k.pagingLevels ≤ limit)
    (good : Good k root m places) (agrees : Agrees k root m f) (bound : level < k.pagingLevels)
    (aligned : pageSize * ptePerPage ^ level ∣ vaddr)
    (canon : CanonRange k vaddr (pageSize * ptePerPage ^ level))
    (notNull : newPte.any PTE.isNull = false)
    (plain : Plain k level (slot k level ((newPte.map k.arch.packPte).getD 0)))
    (found : Entry.found level (slot k level ((newPte.map k.arch.packPte).getD 0)) =
      newPte.map fun pte => (level, pte))
    (wanted : target = newPte.map fun pte => (pte.ppn * pageSize, pte.flags)) :
    ActsOn k root m (mapRawImpl k root vaddr newPte level)
      (put f vaddr (pageSize * ptePerPage ^ level) target) k.pagingLevels := by
  have pos : 0 < pageSize * ptePerPage ^ level := Nat.mul_pos (by decide) (Nat.pow_pos (by decide))
  have page := mod_eq_zero_of_dvd (Nat.dvd_trans (Nat.dvd_mul_right ..) aligned)
  obtain ⟨m', places', run, good', short, changed⟩ :=
    mapRawImpl_ok law enough room good page bound notNull plain
  refine ⟨m', places', run, good', ?_, short⟩
  intro v small isCanon
  obtain ⟨small', isCanon'⟩ := canon vaddr le_rfl (by omega)
  rw [changed _ vpn_lt]
  unfold put
  by_cases inside : vaddr ≤ v ∧ v < vaddr + pageSize * ptePerPage ^ level
  · rw [if_pos inside, if_pos ((vpn_div_eq_iff law bound small isCanon small' isCanon').mpr
      ((div_chunk_eq_iff pos aligned).mpr inside)), found, wanted]
    cases newPte with
    | none => rfl
    | some pte =>
      simp only [Option.map_some, meaning, Option.some.injEq, Prod.mk.injEq, and_true]
      rw [Nat.add_mul, Nat.add_assoc, vpn_offset bound aligned inside]
  · rw [if_neg inside, if_neg, agrees v small isCanon]
    intro same
    exact inside ((div_chunk_eq_iff pos aligned).mp
      ((vpn_div_eq_iff law bound small isCanon small' isCanon').mp same))

section

variable (law : Lawful k) (enough : Enough k limit)
  (room : m.used.length + k.pagingLevels ≤ limit) (good : Good k root m places)
  (agrees : Agrees k root m f)
include law enough room good agrees

theorem chunk_map (bound : level < k.pagingLevels)
    (aligned : pageSize * ptePerPage ^ level ∣ vaddr)
    (page : paddr % pageSize = 0) (canon : CanonRange k vaddr (pageSize * ptePerPage ^ level))
    (fits : Fits k (paddr / pageSize) (ptePerPage ^ level) flags) :
    ActsOn k root m
      (mapRawImpl k root vaddr (some ⟨paddr / pageSize, flags, level, true, true⟩) level)
      (put f vaddr (pageSize * ptePerPage ^ level) (some (paddr, flags))) k.pagingLevels := by
  have written :
      slot k level (k.arch.packPte ⟨paddr / pageSize, flags, level, true, true⟩) = .leaf _ :=
    slot_leaf (fits.packs bound (Nat.pow_pos (by decide)))
  apply mapRawImpl_agrees _ law enough room good agrees bound aligned canon
  · simp [PTE.isNull]
  · change Plain k level (slot k level (k.arch.packPte _))
    rw [written]
    exact ⟨rfl, fits⟩
  · change Entry.found level (slot k level (k.arch.packPte _)) = _
    rw [written]
    rfl
  · simp [Nat.div_mul_cancel (dvd_of_mod_eq_zero page)]

theorem page_unmap (aligned : vaddr % pageSize = 0) (canon : CanonRange k vaddr pageSize) :
    ActsOn k root m (unmap k root vaddr) (put f vaddr pageSize none) k.pagingLevels := by
  have empty : slot k 0 ((none.map k.arch.packPte).getD 0) = .empty := slot_zero law
  obtain ⟨m', places', run, good', agrees', short⟩ :=
    mapRawImpl_agrees none law enough room good agrees law.levels.1
    (dvd_of_mod_eq_zero aligned) canon rfl (by rw [empty]; trivial) (by rw [empty]; rfl) rfl
  exact ⟨m', places', handle_of_ok run, good', agrees', short⟩

end

/-! ### Ranges -/

theorem two_pow_dvd_or {a b : Nat} (h : 2 ^ n ∣ a ||| b) : 2 ^ n ∣ a ∧ 2 ^ n ∣ b := by
  rw [dvd_iff_mod_eq_zero, or_mod_two_pow, or_eq_zero_iff] at h
  exact ⟨dvd_of_mod_eq_zero h.1, dvd_of_mod_eq_zero h.2⟩

theorem calcSuperpage_spec (hp : paddr % pageSize = 0) (hv : vaddr % pageSize = 0)
    (hl : len % pageSize = 0) :
    ∃ level, calcSuperpage paddr vaddr len = some level ∧
      pageSize * ptePerPage ^ level ∣ paddr ∧
      pageSize * ptePerPage ^ level ∣ vaddr ∧ pageSize * ptePerPage ^ level ∣ len := by
  have pages : 2 ^ 12 ∣ paddr ||| vaddr ||| len := by
    rw [dvd_iff_mod_eq_zero, or_mod_two_pow, or_mod_two_pow]
    rw [hp, hv, hl]
    rfl
  have enough := le_trailingZeros (by decide) pages
  generalize zeros : trailingZeros (paddr ||| vaddr ||| len) = n at enough
  have size (level : Nat) : pageSize * ptePerPage ^ level = 2 ^ (12 + 9 * level) := by
    rw [Nat.pow_add, Nat.pow_mul]
  refine ⟨(n - 12) / 9, ?_, ?_⟩
  · unfold calcSuperpage
    rw [zeros]
    simp [usizeSub, enough]
  · have whole := trailingZeros_dvd (paddr ||| vaddr ||| len)
    rw [zeros] at whole
    have chunk := Nat.dvd_trans (Nat.pow_dvd_pow 2 (by omega : 12 + 9 * ((n - 12) / 9) ≤ n)) whole
    rw [size]
    obtain ⟨first, third⟩ := two_pow_dvd_or chunk
    obtain ⟨first, second⟩ := two_pow_dvd_or first
    exact ⟨first, second, third⟩

/-- Two ranges one after the other, to addresses one after the other. -/
theorem put_put (f : Nat → Option (Nat × Nat)) (start first rest : Nat)
    (target : Option (Nat × Nat)) :
    put (put f start first target) (start + first) rest (target.map fun t => (t.1 + first, t.2)) =
      put f start (first + rest) target := by
  unfold put
  cases target <;> simp <;> grind

theorem put_zero (f : Nat → Option (Nat × Nat)) (start : Nat) (target : Option (Nat × Nat)) :
    put f start 0 target = f := by
  funext v
  unfold put
  rw [if_neg (by omega)]

theorem level_lt (law : Lawful k) (canon : CanonRange k vaddr len) (nonempty : len ≠ 0)
    (chunk : pageSize * ptePerPage ^ level ∣ len) : level < k.pagingLevels := by
  have short : 2 ^ (12 + 9 * level) ≤ 2 ^ (9 * k.pagingLevels + 11) := by
    calc 2 ^ (12 + 9 * level) = pageSize * ptePerPage ^ level := by rw [Nat.pow_add, Nat.pow_mul]
      _ ≤ len := le_of_dvd (by omega) chunk
      _ ≤ half k := canon.length_le law
  have := (Nat.pow_le_pow_iff_right (by decide)).mp short
  omega

theorem mapLoop_ok {fuel : Nat} (law : Lawful k) (enough : Enough k limit)
    (room : m.used.length + fuel * k.pagingLevels ≤ limit) (good : Good k root m places)
    (agrees : Agrees k root m f)
    (hp : paddr % pageSize = 0) (hv : vaddr % pageSize = 0) (hl : len % pageSize = 0)
    (fueled : len ≤ fuel * pageSize)
    (canon : CanonRange k vaddr len) (fits : Fits k (paddr / pageSize) (len / pageSize) flags)
    (vends : vaddr + len < usizeSize) (pends : paddr + len < usizeSize) :
    ActsOn k root m (mapLoop k root flags fuel vaddr paddr len)
      (put f vaddr len (some (paddr, flags))) (fuel * k.pagingLevels) := by
  induction fuel generalizing m places f vaddr paddr len with
  | zero =>
    obtain rfl : len = 0 := by omega
    refine ⟨m, places, rfl, good, ?_, Nat.le_add_right ..⟩
    rw [put_zero]
    exact agrees
  | succ fuel ih =>
    by_cases nonempty : len = 0
    · subst nonempty
      refine ⟨m, places, rfl, good, ?_, Nat.le_add_right ..⟩
      rw [put_zero]
      exact agrees
    obtain ⟨level, chosen, chunkp, chunkv, chunkl⟩ := calcSuperpage_spec hp hv hl
    have bound := level_lt law canon nonempty chunkl
    have shift : usizeShl pageSize (bitsPerLevel * level) = some
        (pageSize * ptePerPage ^ level) := by
      have := law.levels.2
      rw [usizeShl_page (by simp only [bitsPerLevel]; omega), Nat.pow_add, Nat.pow_mul,
        Nat.mul_comm]
      rfl
    generalize size : pageSize * ptePerPage ^ level = chunk at *
    have whole : chunk % pageSize = 0 := by
      rw [← size]
      exact mul_mod_right ..
    have pages : chunk / pageSize = ptePerPage ^ level := by
      rw [← size]
      exact Nat.mul_div_cancel_left _ (by decide)
    have pos : pageSize ≤ chunk :=
      le_of_dvd (by rw [← size]; exact Nat.mul_pos (by decide) (Nat.pow_pos (by decide)))
      (dvd_of_mod_eq_zero whole)
    have short : chunk ≤ len := le_of_dvd (by omega) chunkl
    obtain ⟨rest, rfl⟩ := Nat.exists_eq_add_of_le short
    simp only [pageSize] at pages whole pos hp hv hl fueled ih fits
    have first : Fits k (paddr / pageSize) (ptePerPage ^ level) flags := fits.take (by omega)
    have later : Fits k ((paddr + chunk) / pageSize) (rest / pageSize) flags := by
      have split : (paddr + chunk) / pageSize = paddr / pageSize + ptePerPage ^ level := by
        simp only [pageSize]
        omega
      rw [split]
      apply fits.part
      simp only [pageSize]
      omega
    rw [← size] at chunkv
    have canon' : CanonRange k vaddr (pageSize * ptePerPage ^ level) := by
      exact canon.take (by omega)
    rw [succ_mul] at room ⊢
    obtain ⟨m₁, places₁, run₁, good₁, agrees₁, short₁⟩ :=
      chunk_map law enough (by omega) good agrees bound chunkv hp canon' first
    rw [size] at agrees₁
    obtain ⟨m', places', run', good', agrees', short'⟩ :=
      ih (by omega) good₁ agrees₁ (add_aligned hp whole)
      (add_aligned hv whole) (by omega) (by omega) (canon.part le_rfl) later (by omega) (by omega)
    refine ⟨m', places', ?_, good', ?_, by omega⟩
    · unfold mapLoop
      rw [if_neg nonempty, chosen, lift_some_bind, shift, lift_some_bind, bind_of_ok run₁,
        usizeAdd_eq_some.mpr ⟨by omega, rfl⟩, lift_some_bind,
          usizeAdd_eq_some.mpr ⟨by omega, rfl⟩, lift_some_bind,
        usizeSub_eq_some.mpr ⟨short, Nat.add_sub_cancel_left ..⟩, lift_some_bind]
      exact run'
    · rw [← put_put]
      exact agrees'

theorem unmapLoop_ok {pages : Nat} (law : Lawful k) (enough : Enough k limit)
    (room : m.used.length + pages * k.pagingLevels ≤ limit) (good : Good k root m places)
    (agrees : Agrees k root m f) (hv : vaddr % pageSize = 0)
    (canon : CanonRange k vaddr (pages * pageSize)) (vends : vaddr + pages * pageSize < usizeSize) :
    ActsOn k root m (unmapLoop k root pages vaddr) (put f vaddr (pages * pageSize) none)
      (pages * k.pagingLevels) := by
  induction pages generalizing m places f vaddr with
  | zero =>
    refine ⟨m, places, rfl, good, ?_, Nat.le_add_right ..⟩
    rw [Nat.zero_mul, put_zero]
    exact agrees
  | succ pages ih =>
    have split : (pages + 1) * pageSize = pageSize + pages * pageSize := by
      rw [succ_mul, Nat.add_comm]
    rw [split] at canon vends ⊢
    rw [succ_mul] at room ⊢
    obtain ⟨m₁, places₁, run₁, good₁, agrees₁, short₁⟩ :=
      page_unmap law enough (by omega) good agrees hv (canon.take (by omega))
    obtain ⟨m', places', run', good', agrees', short'⟩ :=
      ih (by omega) good₁ agrees₁ (add_aligned hv rfl) (canon.part le_rfl) (by omega)
    refine ⟨m', places', ?_, good', ?_, by omega⟩
    · unfold unmapLoop
      rw [bind_of_ok run₁, usizeAdd_eq_some.mpr ⟨by omega, rfl⟩, lift_some_bind]
      exact run'
    · rw [← put_put]
      exact agrees'

/-! ### Operations -/

inductive Op where
  | map (vaddr paddr flags : Nat)
  | mapMutiple (vaddr paddr flags len : Nat)
  | unmap (vaddr : Nat)
  | unmapMultiple (vaddr size : Nat)
  deriving DecidableEq, Repr

def exec (k : Machine) (root : Nat) : Op → Fallible Mem Errno Unit
  | .map vaddr paddr flags => PageTable.map k root vaddr paddr flags
  | .mapMutiple vaddr paddr flags len => PageTable.mapMutiple k root vaddr paddr flags len
  | .unmap vaddr => PageTable.unmap k root vaddr
  | .unmapMultiple vaddr size => PageTable.unmapMultiple k root vaddr size

/-- Of whole pages with canonical addresses, with entries that are read as they are written. -/
def Op.Proper (k : Machine) : Op → Prop
  | .map vaddr paddr flags => vaddr % pageSize = 0 ∧ paddr % pageSize = 0 ∧
    CanonRange k vaddr pageSize ∧
      LeavesPack k (paddr / pageSize) 1 flags
  | .mapMutiple vaddr paddr flags len => vaddr % pageSize = 0 ∧ paddr % pageSize = 0 ∧
    len % pageSize = 0 ∧
      CanonRange k vaddr len ∧ LeavesPack k (paddr / pageSize) (len / pageSize) flags
  | .unmap vaddr => vaddr % pageSize = 0 ∧ CanonRange k vaddr pageSize
  | .unmapMultiple vaddr size => vaddr % pageSize = 0 ∧ size % pageSize = 0 ∧
    CanonRange k vaddr size

/-- A range of several pages ends before the last address, and what is mapped can be cleaned up. -/
def Op.Safe (k : Machine) : Op → Prop
  | .map _ paddr flags => Cleans k (paddr / pageSize) flags
  | .mapMutiple vaddr paddr flags len => vaddr + len < usizeSize ∧ paddr + len < usizeSize ∧
      ∀ j < len / pageSize, Cleans k (paddr / pageSize + j) flags
  | .unmap _ => True
  | .unmapMultiple vaddr size => vaddr + size < usizeSize

/-- How often `map_raw_impl` is called, at most. -/
def Op.calls : Op → Nat
  | .map .. => 1
  | .mapMutiple _ _ _ len => len / pageSize
  | .unmap _ => 1
  | .unmapMultiple _ size => size / pageSize

def Op.start : Op → Nat
  | .map vaddr .. | .mapMutiple vaddr .. | .unmap vaddr | .unmapMultiple vaddr _ => vaddr

def Op.length : Op → Nat
  | .map .. | .unmap _ => pageSize
  | .mapMutiple _ _ _ len => len
  | .unmapMultiple _ size => size

/-- The physical start and the flags, of a mapping. -/
def Op.target : Op → Option (Nat × Nat)
  | .map _ paddr flags | .mapMutiple _ paddr flags _ => some (paddr, flags)
  | .unmap _ | .unmapMultiple .. => none

theorem exec_acts {op : Op} (law : Lawful k) (enough : Enough k limit)
    (room : m.used.length + op.calls * k.pagingLevels ≤ limit) (good : Good k root m places)
    (agrees : Agrees k root m f) (proper : op.Proper k) (safe : op.Safe k) :
    ActsOn k root m (exec k root op) (put f op.start op.length op.target)
      (op.calls * k.pagingLevels) := by
  cases op with
  | map vaddr paddr flags =>
    obtain ⟨hv, hp, canon, packs⟩ := proper
    have fits : Fits k (paddr / pageSize) 1 flags := by
      refine ⟨packs, ?_⟩
      intro j lt
      obtain rfl : j = 0 := Nat.lt_one_iff.mp lt
      exact safe
    simp only [Op.calls, Nat.one_mul] at room ⊢
    obtain ⟨m', places', run, good', agrees', short⟩ :=
      chunk_map law enough room good agrees law.levels.1 (dvd_of_mod_eq_zero hv) hp canon fits
    refine ⟨m', places', ?_, good', agrees', short⟩
    simp only [exec, PageTable.map, debugAssert_of hp, lift_some_bind]
    exact run
  | mapMutiple vaddr paddr flags len =>
    obtain ⟨hv, hp, hl, canon, packs⟩ := proper
    obtain ⟨m', places', run, good', agrees', short⟩ :=
      mapLoop_ok law enough room good agrees hp hv hl
      (Nat.le_of_eq (Nat.div_mul_cancel (dvd_of_mod_eq_zero hl)).symm) canon ⟨packs, safe.2.2⟩
        safe.1 safe.2.1
    refine ⟨m', places', ?_, good', agrees', short⟩
    simp only [exec, PageTable.mapMutiple, debugAssert_of hp, debugAssert_of hl, lift_some_bind]
    exact run
  | unmap vaddr =>
    obtain ⟨hv, canon⟩ := proper
    simp only [Op.calls, Nat.one_mul] at room ⊢
    exact page_unmap law enough room good agrees hv canon
  | unmapMultiple vaddr size =>
    obtain ⟨hv, hl, canon⟩ := proper
    have whole := Nat.div_mul_cancel (dvd_of_mod_eq_zero hl)
    have canon' : CanonRange k vaddr (size / pageSize * pageSize) := by
      rw [whole]
      exact canon
    simp only [Op.calls] at room ⊢
    obtain ⟨m', places', run, good', agrees', short⟩ :=
      unmapLoop_ok law enough room good agrees hv canon' (by rw [whole]; exact safe)
    rw [whole] at agrees'
    refine ⟨m', places', ?_, good', agrees', short⟩
    simp only [exec, PageTable.unmapMultiple, debugAssert_of hl, lift_some_bind]
    exact run

/-! ### Sequences -/

def Op.covers (op : Op) (v : Nat) : Bool := op.start ≤ v && v < op.start + op.length

/-- The last of the operations that covers an address. -/
def lastCovering (ops : List Op) (v : Nat) : Option Op := ops.reverse.find? fun op => op.covers v

/-- The address and the flags that it is mapped to. -/
def Op.maps (op : Op) (v : Nat) : Option (Nat × Nat) :=
  op.target.map fun t => (t.1 + (v - op.start), t.2)

/-- What a flat map has for an address. -/
def flat (ops : List Op) (v : Nat) : Option (Nat × Nat) :=
  (lastCovering ops v).bind fun op => op.maps v

theorem flat_append (ops : List Op) (op : Op) : flat (ops ++ [op]) = put
    (flat ops) op.start op.length op.target := by
  funext v
  unfold flat put lastCovering
  rw [reverse_append, reverse_singleton, singleton_append, List.find?_cons]
  by_cases inside : op.start ≤ v ∧ v < op.start + op.length
  · have covers : op.covers v = true := by simp [Op.covers, inside]
    rw [covers, if_pos inside]
    rfl
  · have covers : op.covers v = false := by
      rw [Op.covers, Bool.and_eq_false_imp]
      simpa using inside
    rw [covers, if_neg inside]

theorem forEach_acts {ops : List Op} (done : List Op) (law : Lawful k) (enough : Enough k limit)
    (room : m.used.length + (ops.map Op.calls).sum * k.pagingLevels ≤ limit)
    (good : Good k root m places)
    (agrees : Agrees k root m (flat done)) (proper : ∀ op ∈ ops, op.Proper k)
    (safe : ∀ op ∈ ops, op.Safe k) :
    ActsOn k root m (forEach (exec k root) ops) (flat (done ++ ops))
      ((ops.map Op.calls).sum * k.pagingLevels) := by
  induction ops generalizing m places done with
  | nil =>
    rw [append_nil]
    exact ⟨m, places, rfl, good, agrees, Nat.le_add_right ..⟩
  | cons op ops ih =>
    rw [forall_mem_cons] at proper safe
    rw [map_cons, sum_cons, Nat.add_mul] at room ⊢
    obtain ⟨m₁, places₁, run₁, good₁, agrees₁, short₁⟩ :=
      exec_acts law enough (by omega) good agrees proper.1 safe.1
    rw [← flat_append] at agrees₁
    obtain ⟨m', places', run', good', agrees', short'⟩ :=
      ih _ (by omega) good₁ agrees₁ proper.2 safe.2
    rw [append_assoc, singleton_append] at agrees'
    exact ⟨m', places', (bind_of_ok run₁).trans run', good', agrees', by omega⟩

/-! ### A new map -/

theorem new_good (law : Lawful k) {m₀ : Mem} (made : new k m₀ = some (.ok root, m)) :
    (∃ places, Good k root m places) ∧ Agrees k root m fun _ => none := by
  unfold new allocPgtablePage pageAlloc at made
  simp only [bind_bind, get_bind] at made
  cases given : k.pageAlloc m₀.used with
  | none =>
    rw [given] at made
    cases made
  | some page =>
    rw [given] at made
    cases made
    have empty (l i : Nat) :
      view k (Mem.setTable { m₀ with used := root :: m₀.used } root fun _ => 0) l root i =
        .empty := by
      unfold view Mem.setTable
      dsimp only
      rw [update_self, slot_zero law]
    have only {p : Nat} {x : Nat × Nat}
        (placed : update (fun _ => none) root (some (k.pagingLevels - 1, 0)) p = some x) :
            p = root := by
      by_contra other
      rw [update_of_ne other] at placed
      cases placed
    constructor
    · refine ⟨update (fun _ => none) root (some (k.pagingLevels - 1, 0)), ?_⟩
      constructor
      · exact update_self ..
      · intro p x placed
        rw [only placed]
        exact mem_cons_self
      · intro p l b i q placed _ entry
        rw [only placed, empty] at entry
        cases entry
      · intro p l b i placed _ q entry
        rw [only placed] at entry
        exact absurd ((empty l i).symm.trans entry) (by simp)
      · intro p l b i pte placed _ entry
        rw [only placed, empty] at entry
        cases entry
    · intro v _ _
      unfold translate
      rw [look_plain (k := k) (by rw [empty]; trivial), empty]
      rfl

/-! ### Looking up -/

theorem read_entry (m : Mem) (table vaddr : Nat) (bound : level < k.pagingLevels) (law : Lawful k) :
    ∃ pte, k.arch.unpackPte (m.tables table (getVpnIndex vaddr level)) level = pte ∧
      view k m level table (Tables.index ptePerPage (vpn k vaddr) level) = pte.entry ∧
        pte.level = level := by
  refine ⟨_, rfl, ?_, law.level ..⟩
  rw [← getVpnIndex_eq vaddr bound]
  rfl

/-- The walk ends at the leaf that the page number leads to, or at an entry that is not valid. -/
theorem walkFrom_ok {table : Nat} (good : Good k root m places) (bound : level < k.pagingLevels)
    (place : places table = some (level, vpn k vaddr / ptePerPage ^ (level + 1))) (law : Lawful k) :
    ∃ pte, walkFrom k m vaddr 0 level table = some pte ∧ pte.level < k.pagingLevels ∧
      look ptePerPage (view k m) (vpn k vaddr) level table = if pte.valid then some (pte.level, pte)
        else none := by
  have pos : 0 < ptePerPage := by decide
  induction level generalizing table with
  | zero =>
    obtain ⟨pte, read, entry, at_level⟩ := read_entry m table vaddr bound law
    refine ⟨pte, ?_, by omega, ?_⟩
    · unfold walkFrom
      simp [read]
    · unfold look
      rw [entry]
      unfold PTE.entry at *
      by_cases invalid : pte.valid = false
      · rw [if_pos invalid, invalid]
        rfl
      · by_cases leaf : pte.leaf = true
        · rw [if_neg invalid, if_pos leaf, Bool.of_not_eq_false invalid, at_level]
          rfl
        · -- There are no tables below the lowest level.
          rw [if_neg invalid, if_neg leaf] at entry
          obtain ⟨l, impossible, -⟩ := good.placed place (index_lt pos) entry
          omega
  | succ level ih =>
    obtain ⟨pte, read, entry, at_level⟩ := read_entry m table vaddr bound law
    unfold walkFrom look
    simp only [read, entry]
    unfold PTE.entry at *
    by_cases invalid : pte.valid = false
    · refine ⟨pte, ?_, by omega, ?_⟩
      · rw [if_pos (.inr ⟨invalid, succ_pos _⟩)]
      · rw [if_pos invalid, invalid]
        rfl
    have valid := Bool.of_not_eq_false invalid
    rw [if_neg (by simp [valid])]
    by_cases leaf : pte.leaf = true
    · refine ⟨pte, ?_, by omega, ?_⟩
      · rw [if_neg (by simp [leaf])]
      · rw [if_neg invalid, if_pos leaf, valid, at_level]
        rfl
    · rw [if_neg invalid, if_neg leaf] at entry ⊢
      obtain ⟨l, same, place'⟩ := good.placed place (index_lt pos) entry
      cases same
      rw [← Tables.div_eq] at place'
      have filled : pte.ppn ≠ 0 := by
        intro zero
        rw [zero, Nat.zero_mul] at entry
        exact (good.links place (index_lt pos) entry).1 rfl
      rw [if_pos ⟨valid, Bool.of_not_eq_true leaf⟩, if_neg filled]
      exact ih (by omega) place'

theorem virt2phys_ok (law : Lawful k) (good : Good k root m places) (agrees : Agrees k root m f)
    (small : v < usizeSize) (canon : isCanonAddr k v = true) :
    ∃ r, virt2phys k m root v = some r ∧ f v = if r.valid then some (r.paddr, r.flags)
      else none := by
  have below : k.pagingLevels - 1 < k.pagingLevels := sub_lt law.levels.1 (by decide)
  obtain ⟨pte, walked, bound, found⟩ := walkFrom_ok good below (good.start vpn_lt law) law
  have shift : bitsPerLevel * pte.level + 12 ≤ 63 := by
    have := law.levels.2
    simp only [bitsPerLevel]
    omega
  have size : 2 ^ (bitsPerLevel * pte.level + 12) = pageSize * ptePerPage ^ pte.level := by
    rw [Nat.pow_add, Nat.pow_mul, Nat.mul_comm]
    rfl
  have start := and_usizeNot small (shift.trans_lt (by decide))
  rw [size] at start
  unfold virt2phys walk
  rw [canon, if_neg (by decide), walked, Option.bind_eq_bind, Option.bind_some,
    usizeShl_page (by omega), Option.bind_eq_bind, Option.bind_some, size]
  refine ⟨_, rfl, ?_⟩
  rw [start, ← agrees v small canon]
  unfold translate
  rw [found]
  cases valid : pte.valid with
  | false => rfl
  | true =>
    simp only [if_true, meaning, Option.map_some, Option.some.injEq, Prod.mk.injEq, and_true]
    have pos : 0 < pageSize * ptePerPage ^ pte.level :=
      Nat.mul_pos (by decide) (Nat.pow_pos (by decide))
    have offset := vpn_offset bound (Nat.dvd_mul_left _
      (v / (pageSize * ptePerPage ^ pte.level))) ⟨div_mul_le_self .., lt_div_mul_add pos⟩
    rw [Nat.add_mul, Nat.add_assoc, offset]

def sv39Pages : List Nat := (List.range 16).map fun i => 0x8000_0000 + i * pageSize

/-- With a few pages for tables. -/
def sv39 : Machine where
  arch := riscv
  pagingLevels := 3
  pageAlloc used := sv39Pages.find? fun page => page ∉ used
  pageBase := id
  pageRange := (0x8_0000, 0x9_0000)
  memobject _ := false

def blank : Mem := ⟨fun _ _ => 0, [], fun _ => 0⟩

theorem sv39_pointers : ∀ page ∈ sv39Pages, ∀ flags ∈ [0, globalFlag], ∀ level < 3,
    slot sv39 level (riscv.packPte ⟨page / pageSize, flags, level, true, false⟩) =
      .table page ∧
      (riscv.unpackPte (riscv.packPte ⟨page / pageSize, flags, level, true, false⟩)
        level).flags &&& refcountFlag = 0 := by
  decide +kernel

theorem sv39_lawful : Lawful sv39 := by
  have known {used : List Nat} {page : Nat}
    (given : sv39Pages.find? (fun page => page ∉ used) = some page) :
      page ∈ sv39Pages := mem_of_find?_eq_some given
  have every : ∀ page ∈ sv39Pages, page % pageSize = 0 ∧ page ≠ 0 := by decide +kernel
  constructor
  · decide
  · intro level
    rfl
  · intro raw level
    rfl
  · intro used page given
    have found := given
    simpa using List.find?_some found
  · intro used page given
    exact (every page (known given)).1
  · intro used page given
    exact (every page (known given)).2
  · intro used page flags level given either bound
    exact (sv39_pointers page (known given) flags (by simpa using either) level bound).1
  · intro used page flags level given either bound
    exact (sv39_pointers page (known given) flags (by simpa using either) level bound).2

theorem sv39_enough : Enough sv39 16 := by
  intro used short out
  have all : sv39Pages ⊆ used := by
    intro page mem
    have none := out
    simpa using List.find?_eq_none.mp none page mem
  have distinct : sv39Pages.Nodup := by decide +kernel
  have := (subperm_of_subset distinct all).length_le
  have : sv39Pages.length = 16 := rfl
  omega

theorem sv39_canon {start len : Nat} (below : start + len ≤ 2 ^ 38) :
    CanonRange sv39 start len := by
  intro v _ high
  have small : v < usizeSize := by
    simp only [usizeSize]
    omega
  refine ⟨small, (isCanonAddr_iff sv39_lawful.levels small).mpr (.inl ?_)⟩
  have size : half sv39 = 2 ^ 38 := rfl
  omega

theorem sv39_packs {ppn pages : Nat}
    (every : ∀ level < 3, ∀ j < pages,
    riscv.unpackPte (riscv.packPte ⟨ppn + j, flags, level, true, true⟩) level =
      ⟨ppn + j, flags, level, true, true⟩) : LeavesPack sv39 ppn pages flags :=
  fun bound lt => every _ bound _ lt

end BadgerOS.PageTable
