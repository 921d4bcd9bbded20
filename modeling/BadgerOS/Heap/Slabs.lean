import BadgerOS.Lib.Fallible
import BadgerOS.Machine

/-!
# The slab heap

`SlabBlock` and `SlabPool` of `mem/heap/slabs.rs`. A block is known by its address.
Its header and the links in its free slabs are memory of the pool, and the two
lists of blocks are lists of addresses; whether the node of a block is in a list
is a field of the header. Removing a block from a list that it is not in would be
undefined and counts as a panic. The blocks come from the page allocator, so the
address of the next one is an argument.
-/

namespace BadgerOS.Heap

open Function

def smallest : Nat := 8
def sizeMul : Nat := 2
def sizes : Nat := 9
def blockSize : Nat := pageSize <<< 2

/-- The size of the header: two pointers of the list node, two counts and the
head of the free slabs. -/
def headerSize : Nat := 40

inductive AllocError where
  | allocError
  deriving DecidableEq, Repr

structure Header where
  occupancy : Nat
  capacity : Nat
  listHead : Nat
  /-- The node is in a list. -/
  inList : Bool
  deriving DecidableEq, Repr

/-- The blocks with some live slabs and those without a free one. -/
inductive Fullness where
  | part
  | full
  deriving DecidableEq, Repr

structure SlabPool where
  headers : Nat → Header
  /-- The `SlabLink` at each address. -/
  links : Nat → Nat
  empty : Option Nat
  /-- `partial` and `full`. -/
  lists : Fullness → List Nat

abbrev Kernel := Fallible SlabPool AllocError

open Fallible

def isPowerOfTwo (x : Nat) : Bool := 2 ^ x.log2 == x

/-- `Result::expect`. -/
def expect {α : Type} (m : Kernel α) : Kernel α := handle m fun _ => lift none

def setHeader (block : Nat) (header : Header) : Kernel Unit :=
  modify fun p => { p with headers := update p.headers block header }

/-! ### Lists of blocks -/

def pushBack (list : Fullness) (block : Nat) : Kernel Unit := do
  let p ← get
  lift (debugAssert ((p.headers block).inList = false))
  setHeader block { p.headers block with inList := true }
  modify fun p => { p with lists := update p.lists list (p.lists list ++ [block]) }

def popFront (list : Fullness) : Kernel Nat := do
  let p ← get
  let block ← lift (p.lists list).head?
  setHeader block { p.headers block with inList := false }
  modify fun p => { p with lists := update p.lists list (p.lists list).tail }
  pure block

def remove (list : Fullness) (block : Nat) : Kernel Unit := do
  let p ← get
  lift (debugAssert (block ∈ p.lists list))
  setHeader block { p.headers block with inList := false }
  modify fun p => { p with lists := update p.lists list ((p.lists list).erase block) }

/-! ### Blocks -/

/-- The loop of `init` over `n` slabs from `ptr` on. -/
def linkSlabs (slabSize : Nat) : Nat → Nat → (Nat → Nat) → Nat → Nat
  | 0, _, links => links
  | n + 1, ptr, links =>
    let next := wrappingAdd ptr slabSize
    linkSlabs slabSize n next (update links ptr next)

/-- How many slabs the header takes. -/
def overhead (slabSize : Nat) : Nat := (headerSize + slabSize - 1) / slabSize

def SlabBlock.init (block slabSize : Nat) : Kernel Unit := do
  lift (debugAssert (8 ≤ slabSize))
  lift (debugAssert (isPowerOfTwo slabSize))
  let first ← lift (usizeSub (overhead slabSize * slabSize) headerSize)
  -- the bounds check of `data[first]`
  lift (debugAssert (first < blockSize - headerSize))
  let ptr := block + headerSize + first
  let capacity ← lift (usizeSub (blockSize / slabSize) (overhead slabSize))
  setHeader block { occupancy := 0, capacity, listHead := ptr, inList := false }
  modify fun p => { p with links := linkSlabs slabSize capacity ptr p.links }

def SlabBlock.alloc (block : Nat) : Kernel Nat := do
  let p ← get
  let header := p.headers block
  if header.listHead = 0 then fail .allocError
  else do
    let occupancy ← lift (usizeAdd header.occupancy 1)
    setHeader block { header with listHead := p.links header.listHead, occupancy }
    pure header.listHead

def SlabBlock.free (block ptr : Nat) : Kernel Unit := do
  let p ← get
  let header := p.headers block
  modify fun p => { p with links := update p.links ptr header.listHead }
  let occupancy ← lift (usizeSub header.occupancy 1)
  setHeader block { header with occupancy, listHead := ptr }

/-! ### Pools -/

namespace SlabPool

def new (headers : Nat → Header) (links : Nat → Nat) : SlabPool where
  headers := headers
  links := links
  empty := none
  lists _ := []

def alloc (slabSize : Nat) (memory : Option Nat) : Kernel Nat := do
  lift (debugAssert (isPowerOfTwo slabSize))
  let p ← get
  match p.lists .part, p.empty with
  | block :: _, _ => do
    let res ← expect (SlabBlock.alloc block)
    let p ← get
    if (p.headers block).occupancy = (p.headers block).capacity then do
      let block ← popFront .part
      pushBack .full block
      pure res
    else pure res
  | [], some block => do
    modify fun p => { p with empty := none }
    let res ← expect (SlabBlock.alloc block)
    pushBack .part block
    pure res
  | [], none =>
    match memory with
    | some block => do
      SlabBlock.init block slabSize
      let res ← expect (SlabBlock.alloc block)
      pushBack .part block
      pure res
    | none => fail .allocError

/-- The address of the block is found by masking the bottom bits off. -/
def blockOf (ptr : Nat) : Nat := ptr &&& usizeNot (blockSize - 1)

def free (ptr : Nat) : Kernel Unit := do
  let block := blockOf ptr
  let p ← get
  let wasFull := (p.headers block).occupancy = (p.headers block).capacity
  SlabBlock.free block ptr
  let p ← get
  if wasFull then do
    remove .full block
    pushBack .part block
  else if (p.headers block).occupancy = 0 then do
    remove .part block
    -- up to one empty block is kept, others go back to the page allocator
    if p.empty = none then modify fun p => { p with empty := some block }
    else pure ()
  else pure ()

end SlabPool

/-! ### What the calls must do -/

inductive Call where
  /-- If a new block is needed, the page allocator gives `memory`. -/
  | alloc (memory : Option Nat)
  | free (ptr : Nat)
  /-- The owner of a slab writes to its first word. -/
  | store (ptr value : Nat)
  deriving DecidableEq, Repr

def Call.exec (slabSize : Nat) : Call → Kernel (Option Nat)
  | .alloc memory => do
    let ptr ← SlabPool.alloc slabSize memory
    pure (some ptr)
  | .free ptr => do
    SlabPool.free ptr
    pure none
  | .store ptr value => do
    modify fun p => { p with links := update p.links ptr value }
    pure none

/-- How many slabs a block has. -/
def capacity (slabSize : Nat) : Nat := blockSize / slabSize - overhead slabSize

/-- The slabs of a block. -/
def slabs (slabSize block : Nat) : List Nat :=
  (List.range (capacity slabSize)).map fun i => block + overhead slabSize * slabSize + i * slabSize

/-- The pool has the block. -/
def SlabPool.Has (p : SlabPool) (block : Nat) : Prop :=
  p.empty = some block ∨ ∃ list, block ∈ p.lists list

/-- Blocks are naturally aligned. -/
structure Aligned (block : Nat) : Prop where
  aligned : blockSize ∣ block
  pos : 0 < block
  fits : block + blockSize ≤ usizeSize

/-- The caller keeps to what it owns, and the page allocator hands out blocks that
the pool does not have. -/
def Call.Legal (p : SlabPool) (live : List Nat) : Call → Prop
  | .alloc memory => ∀ block, memory = some block → Aligned block ∧ ¬ p.Has block
  | .free ptr => ptr ∈ live
  | .store ptr _ => ptr ∈ live

/-- The live slabs of a block. -/
def liveIn (live : List Nat) (block : Nat) : List Nat :=
  live.filter fun ptr => SlabPool.blockOf ptr = block

/-- The counts are right and each block is where its count says. -/
structure Tidy (slabSize : Nat) (p : SlabPool) (live : List Nat) : Prop where
  occupancy {block : Nat} (has : p.Has block) :
    (p.headers block).occupancy = (liveIn live block).length
  part_iff {block : Nat} (has : p.Has block) : block ∈ p.lists .part ↔
    0 < (liveIn live block).length ∧ (liveIn live block).length < capacity slabSize
  full_iff {block : Nat} (has : p.Has block) : block ∈ p.lists .full ↔
    (liveIn live block).length = capacity slabSize
  empty_iff {block : Nat} (has : p.Has block) : p.empty = some block ↔ liveIn live block = []

/-- The slab is one of the slabs of a block of the pool and overlaps no live one. -/
structure Placed (slabSize : Nat) (p : SlabPool) (live : List Nat) (ptr : Nat) : Prop where
  inside : ∃ block, p.Has block ∧ ptr ∈ slabs slabSize block ∧
    block + headerSize ≤ ptr ∧ ptr + slabSize ≤ block + blockSize
  apart {other : Nat} (lives : other ∈ live) : ptr + slabSize ≤ other ∨
    other + slabSize ≤ ptr

/-- Legal calls do not panic, fail only without memory, place what they allocate
and leave a tidy pool. -/
def Sound (slabSize : Nat) : List Call → SlabPool → List Nat → Prop
  | [], p, live => Tidy slabSize p live
  | call :: rest, p, live => Tidy slabSize p live ∧ (call.Legal p live →
    match call, call.exec slabSize p with
    | .alloc _, some (.ok (some ptr), p') => Placed slabSize p' live ptr ∧
      Sound slabSize rest p' (ptr :: live)
    | .alloc memory, some (.error _, p') => memory = none ∧ Sound slabSize rest p' live
    | .free ptr, some (.ok _, p') => Sound slabSize rest p' (live.erase ptr)
    | .store _ _, some (.ok _, p') => Sound slabSize rest p' live
    | _, _ => False)

end BadgerOS.Heap
