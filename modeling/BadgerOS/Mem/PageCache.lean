import BadgerOS.Lib.Fallible
import BadgerOS.Util.RadixTree
import BadgerOS.Types

/-!
# The page cache

`PageCache` of `mem/pagecache.rs` with one thread and a backing store that never
fails. Allocations succeed: a new entry gets the next block of memory, with
unknown contents. Indexes are `u64` keys of a radix tree with four bits a level.
-/

namespace BadgerOS.PageCache

open Function

abbrev Byte := BitVec 8

namespace Flags

def dirty : BitVec 32 := 1
def writing : BitVec 32 := 2
def reading : BitVec 32 := 4

end Flags

/-- What does not change while the length stays: it is so that no index or block
computation overflows. -/
structure Config where
  blockSizeExp : Nat
  /-- Object size in bytes. -/
  len : Nat
  fits : len + 2 ^ max blockSizeExp pageBits ≤ usizeSize

namespace Config

variable (c : Config)

def entrySizeExp : Nat := max c.blockSizeExp pageBits
def entryPagesExp : Nat := c.entrySizeExp - pageBits
def entryBlocksExp : Nat := c.entrySizeExp - c.blockSizeExp

/-- The length in blocks. -/
def blockLen : Nat := (c.len + 2 ^ c.blockSizeExp - 1) / 2 ^ c.blockSizeExp

/-- The entry of an offset, and the page in the entry. -/
def index (offset : Nat) : Nat × Nat :=
  (offset >>> (c.blockSizeExp + c.entryBlocksExp), (offset >>> pageBits) % 2 ^ c.entryPagesExp)

end Config

/-- An entry of the tree is its block of memory. -/
abbrev Entry := Nat

structure State where
  pages : RadixTree Entry
  flags : Entry → BitVec 32
  refcount : Entry → Nat
  /-- The bytes of each block of memory. -/
  mem : Entry → Nat → Byte
  /-- The backing store. -/
  store : Nat → Byte
  /-- The next block that is allocated. -/
  next : Entry

abbrev Kernel := Fallible State Errno

open Fallible

/-- Bytes of `target` from `start` on are replaced by the first `len` of `source`. -/
def overwrite (target : Nat → Byte) (start len : Nat) (source : Nat → Byte) : Nat → Byte :=
  fun x =>
  if start ≤ x ∧ x < start + len then source (x - start) else target x

def getEntry (index : Nat) : Kernel (Option Entry) := do
  let s ← get
  lift (s.pages.get 64 4 index)

def setFlags (ent : Entry) (flags : BitVec 32) : Kernel Unit :=
  modify fun s => { s with flags := update s.flags ent flags }

def setMem (ent : Entry) (bytes : Nat → Byte) : Kernel Unit :=
  modify fun s => { s with mem := update s.mem ent bytes }

def addRef (ent : Entry) : Kernel Unit :=
  modify fun s => { s with refcount := update s.refcount ent (s.refcount ent + 1) }

/-- `MappablePage::drop`. -/
def dropRef (ent : Entry) : Kernel Unit :=
  modify fun s => { s with refcount := update s.refcount ent (s.refcount ent - 1) }

/-- The blocks of an entry that the object has: the first, and how many bytes. -/
def extent (c : Config) (index : Nat) : Nat × Nat :=
  let startBlock := index <<< c.entryBlocksExp
  let endBlock := min (startBlock + 2 ^ c.entryBlocksExp) c.blockLen
  (startBlock, (endBlock - startBlock) <<< c.blockSizeExp)

def readFromDisk (c : Config) (index : Nat) (paddr : Entry) : Kernel Unit := do
  let (startBlock, bytes) := extent c index
  if startBlock ≥ c.blockLen then fail .enxio
  else do
    let s ← get
    setMem paddr (overwrite (s.mem paddr) 0 bytes fun i =>
      s.store ((startBlock <<< c.blockSizeExp) + i))
    -- the last entry is filled up with zeroes
    let entryBytes := pageSize <<< c.entryPagesExp
    let validBytes := min (c.len - startBlock * 2 ^ c.blockSizeExp) entryBytes
    if c.blockLen ≤ startBlock + 2 ^ c.entryBlocksExp ∧ validBytes < entryBytes then do
      let s ← get
      setMem paddr (overwrite (s.mem paddr) validBytes (entryBytes - validBytes) fun _ => 0)
    else pure ()

def writeToDisk (c : Config) (index : Nat) (paddr : Entry) : Kernel Unit := do
  let (startBlock, bytes) := extent c index
  if startBlock ≥ c.blockLen then fail .enxio
  else modify fun s =>
    { s with store := overwrite s.store (startBlock <<< c.blockSizeExp) bytes (s.mem paddr) }

/-- `get`: the block of the page, and where in it the page starts. A thread that
finds an entry being read would wait for the one that reads it. -/
def getPage (c : Config) (addr : Nat) : Kernel (Option (Entry × Nat)) := do
  lift (debugAssert (addr % pageSize = 0))
  let (index, offset) := c.index addr
  match ← getEntry index with
  | none => pure none
  | some ent => do
    let s ← get
    if s.flags ent &&& Flags.reading ≠ 0 then lift none
    else do
      addRef ent
      pure (some (ent, offset * pageSize))

/-- `page_alloc`: a block that nothing refers to. -/
def pageAlloc : Kernel Entry := do
  let s ← get
  modify fun s =>
    { s with next := s.next + 1, refcount := update s.refcount s.next 0 }
  pure s.next

def insertEntry (index : Nat) (ent : Entry) : Kernel Unit := do
  let s ← get
  let (_, pages) ← lift (s.pages.insert 64 4 index ent)
  modify fun s => { s with pages := pages }

def removeEntry (index : Nat) : Kernel Unit := do
  let s ← get
  let (_, pages) ← lift (s.pages.remove 64 4 index)
  modify fun s => { s with pages := pages }

def alloc (c : Config) (addr : Nat) : Kernel (Entry × Nat) := do
  match ← getPage c addr with
  | some page => pure page
  | none => do
    let (index, offset) := c.index addr
    let paddr ← pageAlloc
    setFlags paddr Flags.reading
    insertEntry index paddr
    -- a failed read takes the entry back out
    handle (readFromDisk c index paddr) fun e => do
      removeEntry index
      fail e
    addRef paddr
    setFlags paddr 0
    pure (paddr, offset * pageSize)

def markDirty (c : Config) (addr : Nat) : Kernel Unit := do
  lift (debugAssert (addr % pageSize = 0))
  match ← getEntry (c.index addr).1 with
  | some ent => do
    let s ← get
    setFlags ent (s.flags ent ||| Flags.dirty)
  | none => pure ()

/-- The page of an address, and where in it the address is. -/
def pageOf (addr : Nat) : Nat × Nat := (addr - addr % pageSize, addr % pageSize)

/-- The loop of `read_bytes`, with a bound on its turns. -/
def readLoop (c : Config) (addr len : Nat) : (turns progress : Nat) → Kernel (List Byte)
  | 0, progress => if progress < len then lift none else pure []
  | turns + 1, progress =>
    if progress < len then do
      let (pageBase, pageOffset) := pageOf (addr + progress)
      let copyLen := min (pageSize - pageOffset) (len - progress)
      let (ent, start) ← alloc c pageBase
      let s ← get
      let piece := (List.range copyLen).map fun i => s.mem ent (start + pageOffset + i)
      dropRef ent
      let rest ← readLoop c addr len turns (progress + copyLen)
      pure (piece ++ rest)
    else pure []

/-- The loop of `write_bytes` and `write_zeroes`, with a bound on its turns. -/
def writeLoop (c : Config) (addr len : Nat) (data : Nat → Byte) :
    (turns progress : Nat) → Kernel Unit
  | 0, progress => if progress < len then lift none else pure ()
  | turns + 1, progress =>
    if progress < len then do
      let (pageBase, pageOffset) := pageOf (addr + progress)
      let copyLen := min (pageSize - pageOffset) (len - progress)
      let (ent, start) ← alloc c pageBase
      let s ← get
      setMem ent (overwrite (s.mem ent) (start + pageOffset) copyLen fun i => data (progress + i))
      markDirty c pageBase
      dropRef ent
      writeLoop c addr len data turns (progress + copyLen)
    else pure ()

/-- The bounds check of the three byte operations. -/
def checkBounds (c : Config) (addr len : Nat) : Kernel Unit :=
  if addr + len < usizeSize ∧ addr + len ≤ c.len then pure () else fail .eio

def readBytes (c : Config) (addr len : Nat) : Kernel (List Byte) := do
  checkBounds c addr len
  readLoop c addr len len 0

def writeBytes (c : Config) (addr : Nat) (wdata : List Byte) : Kernel Unit := do
  checkBounds c addr wdata.length
  writeLoop c addr wdata.length (fun i => wdata.getD i 0) wdata.length 0

def writeZeroes (c : Config) (addr len : Nat) : Kernel Unit := do
  checkBounds c addr len
  writeLoop c addr len (fun _ => 0) len 0

def syncImpl (c : Config) : List Nat → Kernel Unit
  | [] => pure ()
  | index :: rest => do
    match ← getEntry index with
    | none => syncImpl c rest
    | some ent => do
      let s ← get
      if s.flags ent &&& (Flags.dirty ||| Flags.writing) = Flags.dirty then do
        setFlags ent 0
        handle (writeToDisk c index ent) fun e => do
          setFlags ent Flags.dirty
          fail e
        -- the entry is expected to be there still
        let ent ← lift (← getEntry index)
        setFlags ent 0
        syncImpl c rest
      else syncImpl c rest

/-- The indexes whose entry is dirty. -/
def dirtyAmong : List Nat → Kernel (List Nat)
  | [] => pure []
  | index :: rest => do
    let found ← getEntry index
    let s ← get
    let rest ← dirtyAmong rest
    pure (if found.any fun ent => s.flags ent &&& Flags.dirty ≠ 0 then index :: rest else rest)

def sync (c : Config) (addr len : Nat) : Kernel Unit := do
  let startIndex := (c.index addr).1
  let endIndex := (c.index (min (addr + (len - 1)) c.len)).1
  let toSync ← dirtyAmong (List.range' startIndex (endIndex + 1 - startIndex))
  syncImpl c toSync

def syncAll (c : Config) : Kernel Unit := do
  let s ← get
  syncImpl c
    (((s.pages.iter 4).filter fun (_, ent) => s.flags ent &&& Flags.dirty ≠ 0).map Prod.fst)

def removeAll : List Nat → Kernel Unit
  | [] => pure ()
  | index :: rest => do
    removeEntry index
    removeAll rest

/-- The entry is clean and nothing refers to it. -/
def State.evictable (s : State) (ent : Entry) : Bool :=
  s.flags ent &&& (Flags.dirty ||| Flags.writing ||| Flags.reading) = 0 ∧ s.refcount ent = 0

def flush : Kernel Unit := do
  let s ← get
  removeAll (((s.pages.iter 4).filter fun (_, ent) => s.evictable ent).map Prod.fst)

inductive Call where
  | readBytes (addr len : Nat)
  | writeBytes (addr : Nat) (wdata : List Byte)
  | writeZeroes (addr len : Nat)
  | sync (addr len : Nat)
  | syncAll
  | flush
  deriving DecidableEq, Repr

/-- A call, with the bytes that it reads. -/
def Call.exec (c : Config) : Call → Kernel (List Byte)
  | .readBytes addr len => PageCache.readBytes c addr len
  | .writeBytes addr wdata => do
    PageCache.writeBytes c addr wdata
    pure []
  | .writeZeroes addr len => do
    PageCache.writeZeroes c addr len
    pure []
  | .sync addr len => do
    PageCache.sync c addr len
    pure []
  | .syncAll => do
    PageCache.syncAll c
    pure []
  | .flush => do
    PageCache.flush
    pure []

namespace Call

/-- What the call reads from an array of bytes, and the array after it. -/
def onArray (m : Nat → Byte) : Call → List Byte × (Nat → Byte)
  | .readBytes addr len => ((List.range' addr len).map m, m)
  | .writeBytes addr wdata => ([], overwrite m addr wdata.length fun i => wdata.getD i 0)
  | .writeZeroes addr len => ([], overwrite m addr len fun _ => 0)
  | .sync _ _ | .syncAll | .flush => ([], m)

def InRange (c : Config) : Call → Prop
  | .readBytes addr len | .writeZeroes addr len | .sync addr len => addr + len ≤ c.len
  | .writeBytes addr wdata => addr + wdata.length ≤ c.len
  | .syncAll | .flush => True

/-- The call writes back the whole object. -/
def SyncsWhole (c : Config) (call : Call) : Prop := call = .syncAll ∨ call = .sync 0 c.len

/-- When a call needs entries, no node of the tree counts more than 239 slots that
are empty, so that it can count sixteen more. -/
def Meets (s : State) : Call → Prop
  | .readBytes _ _ | .writeBytes _ _ | .writeZeroes _ _ => s.pages.Within 4 239
  | .sync _ _ | .syncAll | .flush => True

end Call

/-- Every call reads what it reads from the array `m`, and a whole sync leaves the
array in the store. -/
def Faithful (c : Config) : List Call → State → (Nat → Byte) → Prop
  | [], _, _ => True
  | call :: rest, s, m => ∃ s', call.exec c s = some (.ok (call.onArray m).1, s') ∧
    (call.SyncsWhole c → ∀ x, x < c.len → s'.store x = m x) ∧
    Faithful c rest s' (call.onArray m).2

/-- Every call meets its condition in the state that it is made in. -/
def Conforms (c : Config) : List Call → State → Prop
  | [], _ => True
  | call :: rest, s => call.Meets s ∧
    ∀ r s', call.exec c s = some (r, s') → Conforms c rest s'

/-- An empty cache over a store. -/
def fresh (store : Nat → Byte) (mem : Entry → Nat → Byte) : State where
  pages := .new
  flags _ := 0
  refcount _ := 0
  mem := mem
  store := store
  next := 0

end BadgerOS.PageCache
