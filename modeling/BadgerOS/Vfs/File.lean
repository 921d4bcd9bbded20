import BadgerOS.Lib.Fallible
import BadgerOS.Machine
import BadgerOS.Types

/-!
# Open files

`VfsFile` of `filesystem/vfs.rs`: any number of handles on one vnode. The
filesystem's `get_size` and `resize` are a stored size, and the page cache is an
array of its set length. A `write` that is not an append is two lock sections,
so that they can also be run apart.
-/

namespace BadgerOS.Vfs

abbrev Byte := BitVec 8

namespace OFlags

def readOnly : BitVec 32 := 0x1
def writeOnly : BitVec 32 := 0x2
def readWrite : BitVec 32 := 0x3
def append : BitVec 32 := 0x4

end OFlags

inductive SeekMode where
  | set | cur | fromEnd
  deriving DecidableEq, Repr

structure FlagsAndOffset where
  offset : Nat
  flags : BitVec 32

/-- `flags & mask != 0`. -/
def FlagsAndOffset.has (self : FlagsAndOffset) (mask : BitVec 32) : Bool := self.flags &&& mask != 0

/-- One vnode and the handles that are open on it. -/
structure Files where
  type : InodeType
  /-- `READ_ONLY` is set in the flags of the vnode's filesystem. -/
  isReadOnly : Bool
  /-- What the filesystem's `get_size` returns. -/
  size : Nat
  pagecache : Option (List Byte)
  handles : Nat → FlagsAndOffset

abbrev Kernel := Fallible Files Errno

namespace PageCache

/-- `set_len`: new bytes are zero. -/
def setLen (cache : List Byte) (newLen : Nat) : List Byte :=
  cache.take newLen ++ List.replicate (newLen - cache.length) 0

/-- The bounds check of `read_bytes` and `write_bytes`. -/
def inBounds (cache : List Byte) (addr len : Nat) : Bool :=
  addr + len < usizeSize && addr + len ≤ cache.length

def readBytes (cache : List Byte) (addr len : Nat) : Except Errno (List Byte) :=
  if inBounds cache addr len then .ok ((cache.drop addr).take len) else .error .eio

def writeBytes (cache : List Byte) (addr : Nat) (wdata : List Byte) : Except Errno (List Byte) :=
  if inBounds cache addr wdata.length then
    .ok (cache.take addr ++ wdata ++ cache.drop (addr + wdata.length))
  else .error .eio

end PageCache

open Fallible

/-- `pagecache.as_ref().unwrap()`. -/
def unwrapCache : Kernel (List Byte) := do
  let s ← get
  lift s.pagecache

def setCache (cache : List Byte) : Kernel Unit := modify fun s => { s with pagecache := some cache }

/-- The filesystem's `resize`. -/
def resizeOps (size : Nat) : Kernel Unit := modify fun s => { s with size := size }

def setOffset (h offset : Nat) : Kernel Unit := modify fun s =>
  { s with handles := Function.update s.handles h { s.handles h with offset := offset } }

/-- `check_eio`: after an I/O error the filesystem is read-only. -/
def checkEio {α : Type} (m : Kernel α) : Kernel α := fun s =>
  match m s with
  | some (.error .eio, s) => some (.error .eio, { s with isReadOnly := true })
  | r => r

/-- `checked_add` of an offset and a length. -/
def checkedAdd (a b : Nat) : Kernel Nat := if a + b < usizeSize then pure (a + b) else fail .enospc

def appendWrite (h : Nat) (wdata : List Byte) : Kernel Nat := do
  let cache ← unwrapCache
  let s ← get
  let newSize ← checkedAdd s.size wdata.length
  resizeOps newSize
  setOffset h newSize
  let cache := PageCache.setLen cache newSize
  setCache cache
  setCache (← liftExcept (some (PageCache.writeBytes cache s.size wdata)))
  pure wdata.length

/-- The end of `regular_write`, in either section. -/
def finishWrite (h : Nat) (wdata : List Byte) (newOff : Nat) : Kernel Nat := do
  let cache ← unwrapCache
  let s ← get
  setCache (← liftExcept (some (PageCache.writeBytes cache (s.handles h).offset wdata)))
  setOffset h newOff
  pure wdata.length

/-- What the section under the shared lock found. -/
inductive Measured where
  | written (count : Nat)
  /-- The lock was dropped: the file must be resized. -/
  | mustGrow (newOff : Nat)
  deriving DecidableEq, Repr

/-- `regular_write` under the shared lock. -/
def regularShared (h : Nat) (wdata : List Byte) : Kernel Measured := do
  let _ ← unwrapCache
  let s ← get
  let newOff ← checkedAdd (s.handles h).offset wdata.length
  if newOff > s.size then pure (.mustGrow newOff)
  else do
    let count ← finishWrite h wdata newOff
    pure (.written count)

/-- `regular_write` under the exclusive lock, which is demoted and not dropped. -/
def regularExclusive (h : Nat) (wdata : List Byte) (newOff : Nat) : Kernel Nat := do
  resizeOps newOff
  let cache ← unwrapCache
  setCache (PageCache.setLen cache newOff)
  finishWrite h wdata newOff

def regularWrite (h : Nat) (wdata : List Byte) : Kernel Nat := do
  match ← regularShared h wdata with
  | .written count => pure count
  | .mustGrow newOff => regularExclusive h wdata newOff

/-- The checks of `write`: whether it appends. -/
def writeMode (h : Nat) : Kernel Bool := do
  let s ← get
  if ¬ (s.handles h).has OFlags.writeOnly then fail .ebadf
  else if s.type = .directory then fail .eisdir
  else if s.isReadOnly then fail .erofs
  else pure ((s.handles h).has OFlags.append)

def write (h : Nat) (wdata : List Byte) : Kernel Nat := do
  if ← writeMode h then checkEio (appendWrite h wdata) else checkEio (regularWrite h wdata)

/-- The bytes that are read, for a buffer of `len` bytes. -/
def read (h len : Nat) : Kernel (List Byte) := do
  let s ← get
  if ¬ (s.handles h).has OFlags.readOnly then fail .ebadf
  else if s.type = .directory then fail .eisdir
  else do
    let cache ← unwrapCache
    let offset := (s.handles h).offset
    let readlen := min len (s.size - offset)
    let newOff ← lift (usizeAdd offset readlen)
    setOffset h newOff
    liftExcept (some (PageCache.readBytes cache offset readlen))

def tell (h : Nat) : Kernel Nat := do
  let s ← get
  pure (s.handles h).offset

def i64Max : Int := 9223372036854775807
def i64Min : Int := -9223372036854775808

/-- `x as i64`. -/
def asI64 (x : Nat) : Int := (BitVec.ofNat 64 x).toInt

/-- `i64::saturating_add`. -/
def saturatingAdd (a b : Int) : Int := max i64Min (min i64Max (a + b))

/-- `clamp`, which panics if the bounds are the wrong way round. -/
def clamp (x lo hi : Int) : Option Int := if lo ≤ hi then some (max lo (min hi x)) else none

def seekFrom (mode : SeekMode) (offset : Int) (current size : Nat) : Int :=
  match mode with
  | .set => offset
  | .cur => saturatingAdd offset (asI64 current)
  | .fromEnd => saturatingAdd offset (asI64 size)

def seek (h : Nat) (mode : SeekMode) (offset : BitVec 64) : Kernel Nat := do
  let s ← get
  let target ← lift (clamp (seekFrom mode offset.toInt (s.handles h).offset s.size) 0
    (asI64 s.size))
  let newOff := (BitVec.ofInt 64 target).toNat
  setOffset h newOff
  pure newOff

def resize (h size : Nat) : Kernel Unit := do
  let s ← get
  if ¬ (s.handles h).has OFlags.writeOnly then fail .ebadf
  else if s.isReadOnly then fail .erofs
  else do
    resizeOps size
    match s.pagecache with
    | some cache => setCache (PageCache.setLen cache size)
    | none => pure ()
    setOffset h (min (s.handles h).offset size)

inductive Call where
  | read (h len : Nat)
  | write (h : Nat) (wdata : List Byte)
  | seek (h : Nat) (mode : SeekMode) (offset : BitVec 64)
  | tell (h : Nat)
  | resize (h size : Nat)
  deriving DecidableEq, Repr

inductive Reply where
  | data (bytes : List Byte)
  | count (n : Nat)
  | position (n : Nat)
  | unit
  deriving DecidableEq, Repr

def Call.exec : Call → Kernel Reply
  | .read h len => do
    let bytes ← Vfs.read h len
    pure (.data bytes)
  | .write h wdata => do
    let n ← Vfs.write h wdata
    pure (.count n)
  | .seek h mode offset => do
    let n ← Vfs.seek h mode offset
    pure (.position n)
  | .tell h => do
    let n ← Vfs.tell h
    pure (.position n)
  | .resize h size => do
    Vfs.resize h size
    pure .unit

end BadgerOS.Vfs
