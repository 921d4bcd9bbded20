import BadgerOS.Machine
import BadgerOS.Lib.Chain

/-!
# The physical page allocator

`mem/pmm/mod.rs` as the code computes it, in the debug profile: every
`debug_assert!` is evaluated, and a failed one is a panic (`none`). The page
structs are indexed by page number, the free-list links by the address of the
free block they are stored in.
-/

namespace BadgerOS

open LinkedMemory Function

inductive PageUsage where
  | unusable | free | pageTable | cache | userAnon | kernelAnon | kernelSlab | kernelSegment
  deriving DecidableEq, Repr

/-- Physical page metadata. A memory object is identified by its address. -/
structure Page where
  refcount : Nat
  order : Nat
  usage : PageUsage
  memobject : Option Nat
  offset : Nat
  deriving DecidableEq, Repr

/-- `core::mem::zeroed()` for a page struct. -/
def Page.zeroed : Page := ⟨0, 0, .unusable, none, 0⟩

abbrev maxOrder : Nat := 64

/-- `PAddrr::MAX`, the end of a free list. -/
abbrev paddrMax : Nat := 18446744073709551615

inductive AllocError where
  | allocError
  deriving DecidableEq, Repr

/-- The static state: the page range in page numbers, the page structs, the
free lists with the links stored in the free blocks, and the counters. -/
structure Pmm where
  rangeStart : Nat
  rangeEnd : Nat
  pages : Nat → Page
  links : Nat → Link Nat
  freeList : Nat → Nat
  kernelPages : Nat
  cachePages : Nat
  freePages : Nat
  usedPages : Nat

namespace Pmm

/-- The allocator before any memory is handed to it. -/
def empty (rangeStart rangeEnd : Nat) : Pmm where
  rangeStart := rangeStart
  rangeEnd := rangeEnd
  pages := fun _ => Page.zeroed
  links := fun _ => ⟨0, 0⟩
  freeList := fun _ => paddrMax
  kernelPages := 0
  cachePages := 0
  freePages := 0
  usedPages := 0

/-- A page number lies in `PAGE_RANGE`. -/
abbrev InRange (s : Pmm) (ppn : Nat) : Prop := s.rangeStart ≤ ppn ∧ ppn < s.rangeEnd

/-- Steps after which a walk along a free list has met every page. -/
def walkBound (s : Pmm) : Nat := s.rangeEnd - s.rangeStart + 1

/-- The blocks on `FREE_LIST[k]`, in order. -/
def freeBlocks (s : Pmm) (k : Nat) : List Nat := follow s.links paddrMax s.walkBound (s.freeList k)

/-- The freelist link of a block, assuming it is free. -/
def freeListStruct (links : Nat → Link Nat) (paddr : Nat) : Option (Link Nat) := do
  debugAssert (paddr % pageSize = 0)
  return links paddr

/-- The loop of `free_list_contains`, bounded by `walkBound`. -/
def containsFrom (s : Pmm) (block : Nat) : Nat → Nat → Option Bool
  | 0, _ => none
  | n + 1, cur =>
    if cur = paddrMax then some false
    else do
      debugAssert (s.InRange (cur / pageSize))
      if cur = block then some true
      else do
        let link ← freeListStruct s.links cur
        containsFrom s block n link.next

/-- Check whether a page is in a certain freelist. -/
def freeListContains (s : Pmm) (block head : Nat) : Option Bool := do
  debugAssert (block % pageSize = 0)
  debugAssert (s.InRange (block / pageSize))
  containsFrom s block s.walkBound head

/-- Unlink a page from the freelist of order `k`. -/
def freeListUnlink (block k : Nat) (s : Pmm) : Option Pmm := do
  debugAssert (k < maxOrder)
  debugAssert (s.freeListContains block (s.freeList k) = some true)
  let link ← freeListStruct s.links block
  debugAssert (link.prev ≠ block)
  debugAssert (link.next ≠ block)
  let links ← if link.next ≠ paddrMax then do
      let nextLink ← freeListStruct s.links link.next
      let nextLink := { nextLink with prev := link.prev }
      debugAssert (nextLink.prev ≠ link.next)
      debugAssert (nextLink.next ≠ link.next)
      pure (update s.links link.next nextLink)
    else pure s.links
  let (links, head) ← if link.prev ≠ paddrMax then do
      let prevLink ← freeListStruct links link.prev
      let prevLink := { prevLink with next := link.next }
      debugAssert (prevLink.next ≠ link.prev)
      debugAssert (prevLink.prev ≠ link.prev)
      pure (update links link.prev prevLink, s.freeList k)
    else pure (links, link.next)
  let s := { s with links := links, freeList := update s.freeList k head }
  debugAssert (s.freeListContains block head = some false)
  return s

/-- Link a page into the freelist of order `k`. -/
def freeListLink (block k : Nat) (s : Pmm) : Option Pmm := do
  debugAssert (k < maxOrder)
  debugAssert (s.freeListContains block (s.freeList k) = some false)
  let head := s.freeList k
  let _ ← freeListStruct s.links block
  let links := update s.links block ⟨paddrMax, head⟩
  let links ← if head ≠ paddrMax then do
      let nextLink ← freeListStruct links head
      let nextLink := { nextLink with prev := block }
      debugAssert (nextLink.prev ≠ head)
      debugAssert (nextLink.next ≠ head)
      pure (update links head nextLink)
    else pure links
  let s := { s with links := links, freeList := update s.freeList k block }
  debugAssert ((links block).prev ≠ block)
  debugAssert ((links block).next ≠ block)
  debugAssert (s.freeListContains block block = some true)
  return s

/-- The page number of the page struct for `paddr`. -/
def pageStruct (s : Pmm) (paddr : Nat) : Option Nat := do
  debugAssert (paddr % pageSize = 0)
  debugAssert (s.InRange (paddr / pageSize))
  return paddr / pageSize

/-- The page struct of the start of the block that `paddr` lies in, with its order. -/
def pageStructBase (s : Pmm) (paddr : Nat) : Option (Nat × Nat) := do
  debugAssert (paddr % pageSize = 0)
  let page ← s.pageStruct paddr
  let order := (s.pages page).order
  let shift := order + pageBits
  debugAssert (shift < 64)
  let aligned := paddr >>> shift <<< shift
  return (page - (paddr - aligned) / pageSize, order)

/-- Write `n` consecutive page structs, as the loops that advance `page_meta` do. -/
def writePages (s : Pmm) (page n : Nat) (f : Page → Page) : Pmm :=
  { s with pages := fun p => if page ≤ p ∧ p < page + n then f (s.pages p) else s.pages p }

/-- The search of `page_alloc` for an order with a free block. -/
def findSplitOrder (freeList : Nat → Nat) : Nat → Nat → Option Nat
  | 0, _ => none
  | n + 1, splitOrder =>
    if freeList splitOrder = paddrMax then
      if splitOrder ≥ maxOrder - 1 then none else findSplitOrder freeList n (splitOrder + 1)
    else some splitOrder

/-- One turn of the split loop of `page_alloc`: the first block of order
`splitOrder` becomes two blocks of the order below. Only the struct of the
block's first page is written, with the order requested by the caller. -/
def splitBlock (order splitOrder : Nat) (s : Pmm) : Option Pmm := do
  let block := s.freeList splitOrder
  let shift := splitOrder + pageBits
  debugAssert (shift < 64 ∧ block = block >>> shift <<< shift)
  let s ← freeListUnlink block splitOrder s
  let page ← s.pageStruct block
  let s := s.writePages page 1 fun p => { p with usage := .free, order := order }
  let half ← usizeShl pageSize (splitOrder - 1)
  let s ← freeListLink (block + half) (splitOrder - 1) s
  freeListLink block (splitOrder - 1) s

/-- The split loop, from order `order + n` down to `order + 1`. -/
def splitBlocks (order : Nat) : Nat → Pmm → Option Pmm
  | 0, s => some s
  | n + 1, s => do
    let s ← splitBlock order (order + n + 1) s
    splitBlocks order n s

/-- The number of turns of `for _ in 0..1 << order`. Nothing fixes the type of
the two literals, so the bound is an `i32`: at 31 the shift gives `i32::MIN` and
the range is empty, from 32 on the shift overflows. -/
def i32Turns (order : Nat) : Option Nat :=
  if order < 31 then some (2 ^ order) else if order = 31 then some 0 else none

/-- The accounting of `page_alloc`. -/
def accountAlloc (usage : PageUsage) (n : Nat) (s : Pmm) : Option Pmm :=
  match usage with
  | .free | .unusable | .kernelSegment => none
  | .cache => some { s with cachePages := wrappingAdd s.cachePages n }
  | .pageTable | .kernelAnon | .kernelSlab =>
    some { s with kernelPages := wrappingAdd s.kernelPages n,
                  usedPages := wrappingAdd s.usedPages n }
  | .userAnon => some { s with usedPages := wrappingAdd s.usedPages n }

/-- Allocate `1 << order` pages of physical memory. -/
def pageAlloc (order : Nat) (usage : PageUsage) (s : Pmm) : Option (Except AllocError Nat × Pmm) :=
  do
  debugAssert (order < maxOrder)
  debugAssert (usage ≠ .unusable ∧ usage ≠ .free)
  match findSplitOrder s.freeList maxOrder order with
  | none => return (.error .allocError, s)
  | some splitOrder =>
    let s ← splitBlocks order (splitOrder - order) s
    let block := s.freeList order
    if block = paddrMax then return (.error .allocError, s)
    let s ← freeListUnlink block order s
    let page ← s.pageStruct block
    let turns ← i32Turns order
    let s := s.writePages page turns fun p =>
      { p with usage := usage, order := order, refcount := 0, memobject := none }
    let s := { s with freePages := wrappingSub s.freePages (2 ^ order) }
    let s ← accountAlloc usage (2 ^ order) s
    return (.ok block, s)

/-- The accounting of `page_free` for the usage a block had. -/
def accountFree (usage : PageUsage) (n : Nat) (s : Pmm) : Option Pmm :=
  match usage with
  | .free | .kernelSegment => none
  | .unusable => some s
  | .cache => some { s with cachePages := wrappingSub s.cachePages n }
  | .pageTable | .kernelAnon | .kernelSlab =>
    some { s with kernelPages := wrappingSub s.kernelPages n,
                  usedPages := wrappingSub s.usedPages n }
  | .userAnon => some { s with usedPages := wrappingSub s.usedPages n }

/-- Try to coalesce a block with its buddy, which then leaves its freelist. -/
def tryCoalesce (block order : Nat) (s : Pmm) : Option (Bool × Pmm) := do
  let size ← usizeShl pageSize order
  let buddy := block ^^^ size
  if ¬ s.InRange (buddy / pageSize) then return (false, s)
  let page ← s.pageStruct buddy
  if (s.pages page).usage ≠ .free ∨ (s.pages page).order ≠ order then return (false, s)
  let s ← freeListUnlink buddy order s
  return (true, s)

/-- The coalescing loop of `page_free`, which stops at `MAX_ORDER`. -/
def coalesce : Nat → Nat → Nat → Pmm → Option (Nat × Nat × Pmm)
  | 0, block, order, s => some (block, order, s)
  | n + 1, block, order, s =>
    if order < maxOrder then do
      let (merged, s) ← tryCoalesce block order s
      if merged then
        let size ← usizeShl pageSize order
        coalesce n (block &&& usizeNot size) (order + 1) s
      else return (block, order, s)
    else some (block, order, s)

/-- Mark a single block of arbitrary order as free. -/
def pageFree (block order : Nat) (s : Pmm) : Option Pmm := do
  let size ← usizeShl pageSize order
  debugAssert (size ≠ 0 ∧ block % size = 0)
  let pagesFreed := 2 ^ order
  let page ← s.pageStruct block
  let s ← accountFree (s.pages page).usage pagesFreed s
  let (block, order, s) ← coalesce (maxOrder - order) block order s
  let page ← s.pageStruct block
  let s := s.writePages page (2 ^ order) fun p => { p with usage := .free, order := order }
  let s ← freeListLink block order s
  return { s with freePages := wrappingAdd s.freePages pagesFreed }

/-- The largest order `mark_free` takes at the front of the rest of a range. -/
def maxFreeOrder (start stop : Nat) : Option Nat := do
  let bits := min (trailingZeros start) (Nat.log2 (stop - start))
  debugAssert (pageBits ≤ bits)
  return bits - pageBits

/-- The loop of `mark_free`; each turn frees at least one page. -/
def markFreeLoop : Nat → Nat → Nat → Pmm → Option Pmm
  | 0, start, stop, s => if stop > start then none else some s
  | n + 1, start, stop, s =>
    if stop > start then do
      let maxOrder ← maxFreeOrder start stop
      let s ← pageFree start maxOrder s
      let size ← usizeShl pageSize maxOrder
      markFreeLoop n (start + size) stop s
    else some s

/-- Mark a range of blocks as free. -/
def markFree (start stop : Nat) (s : Pmm) : Option Pmm := do
  debugAssert (start % pageSize = 0)
  debugAssert (stop % pageSize = 0)
  markFreeLoop ((stop - start) / pageSize) start stop s

end Pmm

end BadgerOS
