import BadgerOS.Lib.Bitmap
import BadgerOS.Lib.Interleaving

/-!
# The block allocator of ext2

`alloc_block` and `free_block` of `E2Fs`, with each access to shared memory, to a lock
or to the disk as a step. The descriptor of a group is cached while some call uses it,
and read from the disk again after that. `owned` is a ghost: the blocks that calls have
returned and that are not freed yet.
-/

namespace BadgerOS.BlockAlloc

open Bitmap

/-- `E2BlockGroup`, while it is in memory. -/
structure Desc where
  freeBlockCount : Nat
  locked : Bool
  /-- Calls that have it. -/
  users : Nat
  deriving DecidableEq, Repr

structure Group where
  /-- Blocks of the group; the last group may be smaller than the others. -/
  size : Nat
  /-- On the disk. -/
  bitmap : List (BitVec 64)
  freeBlockCount : Nat
  desc : Option Desc
  deriving DecidableEq, Repr

inductive Op where
  | alloc
  /-- The block as an index into the group. -/
  | free (index : Nat)
  deriving DecidableEq, Repr

/-- What is next when a call leaves a group. -/
inductive Next where
  | retry
  | allocated (block : Nat)
  | freed
  deriving DecidableEq, Repr

/-- Where a call is in a group. -/
inductive Stage where
  /-- `get_block_group`. -/
  | get (op : Op)
  | lock (op : Op)
  /-- `free_block_count > 0`. -/
  | check
  /-- Read a word of the bitmap, and write it with one more bit. -/
  | scan (i : Nat)
  | mark (i : Nat) (word : BitVec 64)
  /-- Count the block in memory, and write the count to the disk. -/
  | take (index : Nat)
  | storeTaken (index : Nat)
  /-- `free_block` reads the word, and writes it with one bit less. -/
  | read (index : Nat)
  | clear (index : Nat) (word : BitVec 64)
  | give (index : Nat)
  | storeGiven (index : Nat)
  /-- `free_blocks.fetch_add`. -/
  | add
  | unlock (next : Next)
  | drop (next : Next)
  deriving DecidableEq, Repr

/-- What a call does with the lock. -/
def Op.first : Op → Stage
  | .alloc => .check
  | .free index => .read index

inductive Failure where
  | eio
  /-- `unwrap` of block number zero. -/
  | panic
  /-- The scan reads behind the bitmap. -/
  | stray
  deriving DecidableEq, Repr

inductive Pc where
  | idle
  | reserve (hint : Nat)
  | at (group : Nat) (stage : Stage)
  | failed (failure : Failure)
  deriving DecidableEq, Repr

structure E2Fs where
  firstDataBlock : Nat
  blocksPerGroup : Nat
  freeBlocks : Nat
  groups : List Group
  threads : List Pc
  owned : List Nat
  deriving DecidableEq, Repr

namespace Group

variable (g : Group)

/-- The count that is in use. -/
def count : Nat := match g.desc with
  | some desc => desc.freeBlockCount
  | none => g.freeBlockCount

def setCount (n : Nat) : Group :=
  { g with desc := g.desc.map fun desc => { desc with freeBlockCount := n } }

def locked : Bool := match g.desc with
  | some desc => desc.locked
  | none => false

def setLocked (b : Bool) : Group :=
  { g with desc := g.desc.map fun desc => { desc with locked := b } }

def users : Nat := match g.desc with
  | some desc => desc.users
  | none => 0

/-- `get_block_group`: the descriptor that is alive, or a new one from the disk. -/
def acquire : Group := match g.desc with
  | some desc => { g with desc := some { desc with users := desc.users + 1 } }
  | none => { g with desc := some ⟨g.freeBlockCount, false, 1⟩ }

/-- The last call that drops the descriptor frees it. -/
def release : Group := match g.desc with
  | some desc =>
    { g with desc := if desc.users ≤ 1 then none else some { desc with users := desc.users - 1 } }
  | none => g

end Group

namespace E2Fs

variable (s : E2Fs)

/-- The number of a block. -/
def block (g index : Nat) : Nat := index + g * s.blocksPerGroup + s.firstDataBlock

def goto (t : Nat) (pc : Pc) : E2Fs := { s with threads := s.threads.set t pc }

/-- A call goes on, and its group changes. -/
def update (t : Nat) (g : Nat) (group : Group) (pc : Pc) : E2Fs :=
  { s with threads := s.threads.set t pc, groups := s.groups.set g group }

def runAt (t g : Nat) (group : Group) : Stage → Option E2Fs
  | .get op => some (s.update t g group.acquire (.at g (.lock op)))
  | .lock op =>
    if group.locked then none
    else some (s.update t g (group.setLocked true) (.at g op.first))
  | .check => some (s.goto t (.at g (if 0 < group.count then .scan 0 else .unlock .retry)))
  | .scan i => some (s.goto t <|
      -- the bound is in bytes of words, as in the source
      if i < (s.blocksPerGroup + 7) / 8 then match group.bitmap[i]? with
        | none => .failed .stray
        | some word => .at g (if word ≠ BitVec.allOnes 64 then .mark i word else .scan (i + 1))
      else .failed .eio)
  | .mark i word =>
    some (s.update t g
      { group with bitmap := group.bitmap.set i (word ||| 1#64 <<< trailingOnes word) }
      (.at g (.take (trailingOnes word + i * 64))))
  | .take index =>
    some (s.update t g (group.setCount (group.count - 1)) (.at g (.storeTaken index)))
  | .storeTaken index =>
    some (s.update t g { group with freeBlockCount := group.count }
      (if s.block g index = 0 then .failed .panic
        else .at g (.unlock (.allocated (s.block g index)))))
  | .read index => match group.bitmap[index / 64]? with
    | none => some (s.goto t (.failed .stray))
    | some word =>
      some (s.goto t
        (if word.getLsbD (index % 64) then .at g (.clear index word) else .failed .eio))
  | .clear index word =>
    some (s.update t g
      { group with
        bitmap := group.bitmap.set (index / 64) (word &&& ~~~(1#64 <<< (index % 64))) }
      (.at g (.give index)))
  | .give index =>
    -- `checked_add` of a `u16`
    if group.count + 1 < 65536 then
      some (s.update t g (group.setCount (group.count + 1)) (.at g (.storeGiven index)))
    else some (s.goto t (.failed .eio))
  | .storeGiven _ => some (s.update t g { group with freeBlockCount := group.count } (.at g .add))
  | .add => some { s.goto t (.at g (.unlock .freed)) with freeBlocks := s.freeBlocks + 1 }
  | .unlock next => some (s.update t g (group.setLocked false) (.at g (.drop next)))
  | .drop next => match next with
    | .retry => some (s.update t g group.release (.at ((1 + g) % s.groups.length) (.get .alloc)))
    | .allocated block => some { s.update t g group.release .idle with owned := block :: s.owned }
    | .freed => some (s.update t g group.release .idle)

def run (t : Nat) : Option E2Fs :=
  match s.threads[t]? with
  | some (.reserve hint) =>
    -- ENOSPC
    if s.freeBlocks = 0 then some (s.goto t .idle)
    else some { s.goto t (.at hint (.get .alloc)) with freeBlocks := s.freeBlocks - 1 }
  | some (.at g stage) => s.groups[g]?.bind fun group => s.runAt t g group stage
  | _ => none

end E2Fs

inductive Event where
  | allocBlock (t hint : Nat)
  | freeBlock (t block : Nat)
  | run (t : Nat)
  deriving DecidableEq, Repr

def step (event : Event) (s : E2Fs) : Option E2Fs :=
  match event with
  | .allocBlock t hint =>
    if s.threads[t]? = some .idle ∧
      hint < s.groups.length then some (s.goto t (.reserve hint)) else none
  | .freeBlock t block =>
    if s.threads[t]? = some .idle ∧ block ∈ s.owned then
      let index := block - s.firstDataBlock
      some { s.goto t (if block < s.firstDataBlock then .failed .eio
          else .at (index / s.blocksPerGroup) (.get (.free (index % s.blocksPerGroup)))) with
        owned := s.owned.erase block }
    else none
  | .run t => s.run t

end BadgerOS.BlockAlloc
