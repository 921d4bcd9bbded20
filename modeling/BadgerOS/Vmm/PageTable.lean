import BadgerOS.Lib.Fallible
import BadgerOS.Machine
import BadgerOS.Types

/-!
# Page tables

`PhysMap` with its tables in memory. An entry is a word that `pack_pte` and `unpack_pte`
write and read. The machine has what the code takes from elsewhere: the number of
levels, the pages that `page_alloc` hands out and the buddy block that a page is in.
-/

namespace BadgerOS.PageTable

open Fallible

/-- `Arch::BITS_PER_LEVEL`. -/
abbrev bitsPerLevel : Nat := 9

/-- `PTE_PER_PAGE`. -/
abbrev ptePerPage : Nat := 512

/-- `flags::G`. -/
def globalFlag : Nat := 0b10_0000

/-- `flags::D`. -/
def dirtyFlag : Nat := 0b1000_0000

/-- `flags::REFCOUNT`. -/
def refcountFlag : Nat := 0b1_0000_0000

structure PTE where
  ppn : Nat
  flags : Nat
  level : Nat
  valid : Bool
  leaf : Bool
  deriving DecidableEq, Repr

def PTE.isNull (self : PTE) : Bool := self.ppn == 0 && self.flags == 0 && !self.valid

structure Arch where
  packPte : PTE → Nat
  unpackPte : Nat → Nat → PTE

/-- The entries of riscv64, without `HAS_PBMT`. -/
def riscv : Arch where
  packPte pte := pte.ppn <<< 10 % usizeSize + (pte.flags &&& 0b11_1111_1110) + pte.valid.toNat
  unpackPte raw level := {
    ppn := (raw >>> 10) % 2 ^ 57
    flags := (raw &&& 0b11_1111_1110) + (raw >>> 61 &&& 0b11) <<< 10
    level := level
    valid := raw &&& 1 != 0
    leaf := raw &&& 0b1110 != 0 }

structure Machine where
  arch : Arch
  /-- `PAGING_LEVELS`. -/
  pagingLevels : Nat
  /-- `page_alloc` of one page, when the given pages are tables already. -/
  pageAlloc : List Nat → Option Nat
  /-- The base page of the buddy block that a page is in. -/
  pageBase : Nat → Nat
  /-- The start and the end of `PAGE_RANGE`. -/
  pageRange : Nat × Nat
  /-- Whether the block with the base page is part of a memory object. -/
  memobject : Nat → Bool

structure Mem where
  /-- The entries of the tables, by physical address and index. -/
  tables : Nat → Nat → Nat
  /-- The pages that are tables. -/
  used : List Nat
  /-- By base page. -/
  refcount : Nat → Nat

def Mem.setTable (m : Mem) (paddr : Nat) (entries : Nat → Nat) : Mem :=
  { m with tables := Function.update m.tables paddr entries }

def Mem.setEntry (m : Mem) (paddr index raw : Nat) : Mem :=
  m.setTable paddr (Function.update (m.tables paddr) index raw)

/-- `x as isize`. -/
def asIsize (x : Nat) : Int := if x < 2 ^ 63 then x else x - 2 ^ 64

/-- `calc_superpage`, which panics if an address is not that of a page. -/
def calcSuperpage (paddr vaddr len : Nat) : Option Nat := do
  let align ← usizeSub (trailingZeros (paddr ||| vaddr ||| len)) pageBits
  pure (align / bitsPerLevel)

def getVpnIndex (vaddr level : Nat) : Nat :=
  (vaddr >>> (level * bitsPerLevel + pageBits)) % 2 ^ bitsPerLevel

section

variable (k : Machine)

def isCanonAddr (addr : Nat) : Bool :=
  let exp := 64 - pageBits - bitsPerLevel * k.pagingLevels
  asIsize ((addr <<< exp) % usizeSize) >>> exp = asIsize addr

def isCanonKernelAddr (addr : Nat) : Bool := isCanonAddr k addr && asIsize addr < 0

def pageAlloc : Fallible Mem Errno Nat := do
  let m ← get
  match k.pageAlloc m.used with
  | none => fail .enomem
  | some paddr => do
    modify fun m => { m with used := paddr :: m.used }
    pure paddr

/-- A table of `INVALID_PTE`. -/
def allocPgtablePage : Fallible Mem Errno Nat := do
  let paddr ← pageAlloc k
  modify fun m => m.setTable paddr fun _ => 0
  pure paddr

def splitPgtableLeaf (orig : PTE) (newLevel : Nat) : Fallible Mem Errno Nat := do
  let paddr ← pageAlloc k
  modify fun m => m.setTable paddr fun i => k.arch.packPte
    { orig with ppn := orig.ppn + i <<< (newLevel * bitsPerLevel), level := newLevel }
  pure paddr

def readPte (paddr index : Nat) : Fallible Mem Errno Nat := do
  let m ← get
  pure (m.tables paddr index)

def writePte (paddr index raw : Nat) : Fallible Mem Errno Unit :=
  modify fun m => m.setEntry paddr index raw

/-- The loop of `map_raw_impl` with `n` levels left above the target; `none` if there is nothing
to do. -/
def descend (vaddr : Nat) (nullPte : Bool) (target : Nat) : Nat → Nat →
    Fallible Mem Errno (Option Nat)
  | 0, table => pure (some table)
  | n + 1, table => do
    let level := target + n + 1
    let index := getVpnIndex vaddr level
    let raw ← readPte table index
    let pte := k.arch.unpackPte raw level
    let flags := if isCanonKernelAddr k vaddr then globalFlag else 0
    if pte.valid = false then
      if nullPte then pure none
      else do
        let paddr ← allocPgtablePage k
        writePte table index (k.arch.packPte ⟨paddr / pageSize, flags, level, true, false⟩)
        descend vaddr nullPte target n paddr
    else if pte.leaf then do
      let paddr ← splitPgtableLeaf k pte (level - 1)
      writePte table index (k.arch.packPte ⟨paddr / pageSize, flags, level, true, false⟩)
      descend vaddr nullPte target n paddr
    else descend vaddr nullPte target n (pte.ppn * pageSize)

/-- `page_struct_base`, for pages that have a `Page`. -/
def pageStructBase (ppn : Nat) : Option Nat := do
  debugAssert (k.pageRange.1 ≤ ppn ∧ ppn < k.pageRange.2)
  pure (k.pageBase ppn)

/-- `fetch_sub` wraps; the offset that `mark_dirty` is told is taken from the base page. -/
def cleanupPte (old : PTE) : Fallible Mem Errno Unit :=
  if old.valid = false ∨ old.flags &&& refcountFlag = 0 then pure ()
  else do
    let base ← lift (pageStructBase k old.ppn)
    modify fun m => { m with
      refcount := Function.update m.refcount base ((m.refcount base + (2 ^ 32 - 1)) % 2 ^ 32) }
    if old.flags &&& dirtyFlag ≠ 0 ∧ k.memobject base then do
      let _ ← lift (usizeSub (base * pageSize) (old.ppn * pageSize))
      pure ()
    else pure ()

def mapRawImpl (root vaddr : Nat) (newPte : Option PTE) (level : Nat) : Fallible Mem Errno Unit :=
  do
  lift (debugAssert (vaddr % pageSize = 0))
  let table ← descend k vaddr (newPte.any PTE.isNull) level (k.pagingLevels - (level + 1)) root
  match table with
  | none => pure ()
  | some table => do
    let index := getVpnIndex vaddr level
    let old ← readPte table index
    writePte table index ((newPte.map k.arch.packPte).getD 0)
    cleanupPte k (k.arch.unpackPte old level)

/-- Up to `fuel` rounds of the loop of `map_mutiple`. -/
def mapLoop (root flags : Nat) : Nat → Nat → Nat → Nat → Fallible Mem Errno Unit
  | 0, _, _, len => if len = 0 then pure () else lift none
  | fuel + 1, vaddr, paddr, len =>
    if len = 0 then pure ()
    else do
      let level ← lift (calcSuperpage paddr vaddr len)
      let max ← lift (usizeShl pageSize (bitsPerLevel * level))
      mapRawImpl k root vaddr (some ⟨paddr / pageSize, flags, level, true, true⟩) level
      let vaddr ← lift (usizeAdd vaddr max)
      let paddr ← lift (usizeAdd paddr max)
      let len ← lift (usizeSub len max)
      mapLoop root flags fuel vaddr paddr len

/-- Each round maps a page or more. -/
def mapMutiple (root vaddr paddr flags len : Nat) : Fallible Mem Errno Unit := do
  lift (debugAssert (paddr % pageSize = 0))
  lift (debugAssert (len % pageSize = 0))
  mapLoop k root flags (len / pageSize) vaddr paddr len

def map (root vaddr paddr flags : Nat) : Fallible Mem Errno Unit := do
  lift (debugAssert (paddr % pageSize = 0))
  mapRawImpl k root vaddr (some ⟨paddr / pageSize, flags, 0, true, true⟩) 0

/-- Panics if `map_raw_impl` fails. -/
def expect (m : Fallible Mem Errno Unit) : Fallible Mem Errno Unit := handle m fun _ => lift none

def unmap (root vaddr : Nat) : Fallible Mem Errno Unit := expect (mapRawImpl k root vaddr none 0)

def unmapLoop (root : Nat) : Nat → Nat → Fallible Mem Errno Unit
  | 0, _ => pure ()
  | pages + 1, vaddr => do
    unmap k root vaddr
    let vaddr ← lift (usizeAdd vaddr pageSize)
    unmapLoop root pages vaddr

def unmapMultiple (root vaddr size : Nat) : Fallible Mem Errno Unit := do
  lift (debugAssert (size % pageSize = 0))
  unmapLoop k root (size / pageSize) vaddr

/-- `walk_shallow` from a table on. -/
def walkFrom (m : Mem) (vaddr minLevel : Nat) : Nat → Nat → Option PTE
  | level, table =>
    let pte := k.arch.unpackPte (m.tables table (getVpnIndex vaddr level)) level
    if level = minLevel ∨ (pte.valid = false ∧ 0 < level) then some pte
    else if pte.valid ∧ pte.leaf = false then
      if pte.ppn = 0 then none
      else match level with
        | 0 => none
        | level + 1 => walkFrom m vaddr minLevel level (pte.ppn * pageSize)
    else some pte

def walk (m : Mem) (root vaddr : Nat) : Option PTE := walkFrom k m vaddr 0 (k.pagingLevels - 1) root

structure Virt2Phys where
  pageVaddr : Nat
  pagePaddr : Nat
  size : Nat
  paddr : Nat
  flags : Nat
  valid : Bool
  deriving DecidableEq, Repr

def virt2phys (m : Mem) (root vaddr : Nat) : Option Virt2Phys :=
  if isCanonAddr k vaddr = false then
    some ⟨vaddr &&& usizeNot (pageSize - 1), 0, pageSize, 0, 0, false⟩
  else do
    let pte ← walk k m root vaddr
    let size ← usizeShl pageSize (bitsPerLevel * pte.level)
    let pageVaddr := vaddr &&& usizeNot (size - 1)
    let pagePaddr := pte.ppn * pageSize
    let offset := vaddr - pageVaddr
    pure ⟨pageVaddr, pagePaddr, size, pagePaddr + offset, pte.flags, pte.valid⟩

/-- `PhysMap::new`. -/
def new : Fallible Mem Errno Nat := allocPgtablePage k

end

/-! ### Canonical addresses -/

section

variable {k : Machine} {v : Nat}

/-- Half of the canonical addresses. -/
def half (k : Machine) : Nat := 2 ^ (bitsPerLevel * k.pagingLevels + 11)

theorem isCanonAddr_iff (levels : 1 ≤ k.pagingLevels ∧ k.pagingLevels ≤ 5) (small : v < usizeSize) :
    isCanonAddr k v = true ↔ v < half k ∨ usizeSize - half k ≤ v := by
  obtain ⟨low, high⟩ := levels
  unfold isCanonAddr half asIsize
  simp only [decide_eq_true_eq, Nat.shiftLeft_eq, Int.shiftRight_eq_div_pow, usizeSize, pageBits,
    bitsPerLevel] at *
  generalize k.pagingLevels = levels at *
  -- The shift is a number for each number of levels.
  interval_cases levels <;> omega

theorem half_le (levels : 1 ≤ k.pagingLevels ∧ k.pagingLevels ≤ 5) : half k ≤ 2 ^ 56 := by
  apply Nat.pow_le_pow_right (by decide)
  simp only [bitsPerLevel]
  omega

end

end BadgerOS.PageTable
