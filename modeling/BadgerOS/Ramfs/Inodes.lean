import BadgerOS.Lib.Fallible
import BadgerOS.Lib.Bytes
import BadgerOS.Types

/-!
# RamFs

The calls of `RamVNode` and `RamFs` that read or change inodes. A vnode shares the
inode that it was opened with, also after the inode has left the table, so that the
inodes are in a list of their own and a vnode is a position in it.
-/

namespace BadgerOS.Ramfs

open Bytes (Byte)
open Fallible

abbrev Name := List Byte

/-- Devices are numbered. -/
inductive MakeFileSpec where
  | fifo
  | charDev (dev : Nat)
  | directory
  | blockDev (dev : Nat)
  | regular
  | symlink (items : List Byte)
  | unixSocket
  deriving DecidableEq, Repr

structure Dirent where
  ino : Nat
  type : InodeType
  name : Name
  deriving DecidableEq, Repr

abbrev Directory := AList fun _ : Name => Dirent

inductive RamFsData where
  | fifo
  | charDev (dev : Nat)
  | directory (entries : Directory)
  | blockDev (dev : Nat)
  | regular (bytes : List Byte)
  | symlink (items : List Byte)
  | unixSocket
  deriving DecidableEq

namespace RamFsData

def asDirectory : RamFsData → Option Directory
  | directory x => some x
  | _ => none

def asRegular : RamFsData → Option (List Byte)
  | regular x => some x
  | _ => none

def nodeType : RamFsData → InodeType
  | fifo => .fifo
  | charDev _ => .charDev
  | directory _ => .directory
  | blockDev _ => .blockDev
  | regular _ => .regular
  | symlink _ => .symlink
  | unixSocket => .unixSocket

end RamFsData

/-- The data of a new file. -/
def MakeFileSpec.data : MakeFileSpec → RamFsData
  | fifo => .fifo
  | charDev dev => .charDev dev
  | directory => .directory ∅
  | blockDev dev => .blockDev dev
  | regular => .regular []
  | symlink items => .symlink items
  | unixSocket => .unixSocket

def MakeFileSpec.isDevice : MakeFileSpec → Bool
  | charDev _ | blockDev _ => true
  | _ => false

structure RamINode where
  data : RamFsData
  size : Nat
  links : Nat
  ino : Nat
  deriving DecidableEq

structure RamFs where
  /-- Every inode that was made. -/
  nodes : List RamINode
  /-- The inode table. -/
  inodes : Nat → Option Nat
  inoCtr : Nat
  allowDevfiles : Bool

def RamFs.new (allowDevfiles : Bool) : RamFs where
  nodes := [⟨.directory ∅, 0, 0, 1⟩]
  inodes := Function.update (fun _ => none) 1 (some 0)
  inoCtr := 2
  allowDevfiles := allowDevfiles

def RamFs.change (s : RamFs) (node : Nat) (f : RamINode → RamINode) : RamFs :=
  { s with nodes := s.nodes.modify node f }

/-! ### User memory -/

/-- A user buffer; `none` is a byte that cannot be loaded. -/
abbrev UserSlice := List (Option Byte)

/-- What is in `dest` in the end, and whether all of it was copied. -/
def copyFromUser : List Byte → UserSlice → List Byte × Bool
  | _ :: dest, some b :: src => (b :: (copyFromUser dest src).1, (copyFromUser dest src).2)
  | d :: dest, _ => (d :: dest, false)
  | [], _ => ([], true)

/-- Panics if the range is not in the buffer. -/
def UserSlice.readMultiple (self : UserSlice) (index : Nat) (out : List Byte) :
    Option (List Byte × Bool) :=
  if index + out.length ≤ self.length then some (copyFromUser out (self.drop index)) else none

/-! ### Calls -/

def inode (node : Nat) : Fallible RamFs Errno RamINode := do
  let s ← get
  lift s.nodes[node]?

def okOr {α : Type} (o : Option α) (e : Errno) : Fallible RamFs Errno α :=
  match o with
  | some a => pure a
  | none => fail e

def setData (node : Nat) (data : RamFsData) : Fallible RamFs Errno Unit :=
  modify fun s => s.change node fun n => { n with data }

def setLinks (node : Nat) (links : Nat) : Fallible RamFs Errno Unit :=
  modify fun s => s.change node fun n => { n with links }

def write (node offset : Nat) (wdata : UserSlice) : Fallible RamFs Errno Unit := do
  let self ← inode node
  let regular ← okOr self.data.asRegular .einval
  if 2 ^ 64 ≤ offset + wdata.length ∨ regular.length < offset + wdata.length then fail .eio
  else do
    -- The offset in the file is also the index in the buffer.
    let (copied, all) ← lift (wdata.readMultiple offset ((regular.drop offset).take wdata.length))
    setData node (.regular (regular.take offset ++ copied ++ regular.drop (offset + wdata.length)))
    if all then pure () else fail .efault

/-- `writable` is whether the buffer can be stored to. -/
def read (node offset len : Nat) (writable : Bool) : Fallible RamFs Errno (List Byte) := do
  let self ← inode node
  let regular ← okOr self.data.asRegular .einval
  if 2 ^ 64 ≤ offset + len ∨ regular.length < offset + len then fail .eio
  else if writable then pure ((regular.drop offset).take len)
  else fail .efault

/-- `room` is whether memory can be had for a file that grows. -/
def resize (node newSize : Nat) (room : Bool) : Fallible RamFs Errno Unit := do
  let self ← inode node
  let regular ← okOr self.data.asRegular .einval
  if regular.length < newSize ∧ room = false then fail .enospc
  else modify fun s => s.change node fun n =>
    { n with
      data := .regular (regular.take newSize ++ List.replicate (newSize - regular.length) 0)
      size := newSize }

/-- Why an inode cannot be unlinked. -/
def RamFsData.refusal (mode : UnlinkMode) : RamFsData → Option Errno
  | directory data =>
    if mode = .fileOnly then some .eisdir
    else if data.entries.length ≠ 0 then some .enotempty
    else none
  | _ => if mode = .dirOnly then some .enotdir else none

def unlink (dir : Nat) (name : Name) (mode : UnlinkMode) : Fallible RamFs Errno Unit := do
  let self ← inode dir
  let directory ← okOr self.data.asDirectory .einval
  let dirent ← okOr (directory.lookup name) .enoent
  setData dir (.directory (directory.erase name))
  let s ← get
  let node ← lift (s.inodes dirent.ino)
  let ino ← inode node
  match ino.data.refusal mode with
  | some e => fail e
  | none =>
    if ino.links = 0 then lift none
    else do
      setLinks node (ino.links - 1)
      if ino.links = 1 then modify fun s =>
        { s with inodes := Function.update s.inodes dirent.ino none }
      else pure ()

/-- `interrupted` is whether the wait for the table is cut short. -/
def link (dir : Nat) (name : Name) (vnode : Nat) (interrupted : Bool) : Fallible RamFs Errno Unit :=
  do
  let self ← inode dir
  let directory ← okOr self.data.asDirectory .einval
  if (directory.lookup name).isSome then fail .eexist
  else if interrupted then fail .eintr
  else do
    let old ← inode vnode
    let s ← get
    let node ← okOr (s.inodes old.ino) .eio
    let ino ← inode node
    if ino.links = 0 then lift none
    else if 65535 ≤ ino.links then fail .emlink
    else do
      setLinks node (ino.links + 1)
      setData dir (.directory (directory.insert name ⟨ino.ino, ino.data.nodeType, name⟩))

/-- `fault` is an interrupt or a lack of memory after the number was taken. -/
def makeFile (dir : Nat) (name : Name) (spec : MakeFileSpec) (fault : Option Errno) :
    Fallible RamFs Errno (Dirent × Nat) := do
  let self ← inode dir
  let directory ← okOr self.data.asDirectory .einval
  let s ← get
  if (directory.lookup name).isSome then fail .eexist
  else if s.allowDevfiles = false ∧ spec.isDevice then fail .einval
  else do
    modify fun s => { s with inoCtr := (s.inoCtr + 1) % 2 ^ 64 }
    match fault with
    | some e => fail e
    | none => do
      modify fun t => { t with
        nodes := t.nodes ++ [⟨spec.data, 0, 1, s.inoCtr⟩]
        inodes := Function.update t.inodes s.inoCtr (some t.nodes.length) }
      let dirent : Dirent := ⟨s.inoCtr, spec.data.nodeType, name⟩
      setData dir (.directory (directory.insert name dirent))
      pure (dirent, s.nodes.length)

/-- `RamVNode::rename`, in one directory. -/
def rename (dir : Nat) (oldName newName : Name) : Fallible RamFs Errno Dirent := do
  let self ← inode dir
  let directory ← okOr self.data.asDirectory .einval
  if oldName = newName then okOr (directory.lookup oldName) .enoent
  else do
    let old ← okOr (directory.lookup oldName) .enoent
    let dirent := { old with name := newName }
    if (directory.lookup newName).isSome then fail .eexist
    else do
      setData dir (.directory ((directory.insert newName dirent).erase oldName))
      pure dirent

/-- What a `dyn Any` refers to. -/
inductive Any where
  | ramVNode (node : Nat)
  | vnodeMtxInner (node : Nat)

def Any.downcastMut : Any → Option Nat
  | ramVNode node => some node
  | vnodeMtxInner _ => none

/-- `RamFs::rename`, between two directories. Its guards refer to the `VNodeMtxInner`
that the operations are in. -/
def renameTo (srcDir : Nat) (srcName : Name) (destDir : Nat) (destName : Name) :
    Fallible RamFs Errno Dirent := do
  let src ← lift (Any.vnodeMtxInner srcDir).downcastMut
  let dest ← lift (Any.vnodeMtxInner destDir).downcastMut
  let srcInode ← inode src
  let srcMap ← lift srcInode.data.asDirectory
  let entry ← okOr (srcMap.lookup srcName) .enoent
  setData src (.directory (srcMap.erase srcName))
  let destInode ← inode dest
  let destMap ← lift destInode.data.asDirectory
  if (destMap.lookup destName).isSome then fail .eexist
  else do
    let entry := { entry with name := destName }
    setData dest (.directory (destMap.insert destName entry))
    pure entry

inductive Call where
  | write (node offset : Nat) (wdata : UserSlice)
  | read (node offset len : Nat) (writable : Bool)
  | resize (node newSize : Nat) (room : Bool)
  | makeFile (dir : Nat) (name : Name) (spec : MakeFileSpec) (fault : Option Errno)
  | link (dir : Nat) (name : Name) (vnode : Nat) (interrupted : Bool)
  | unlink (dir : Nat) (name : Name) (mode : UnlinkMode)
  | rename (dir : Nat) (oldName newName : Name)
  | renameTo (srcDir : Nat) (srcName : Name) (destDir : Nat) (destName : Name)
  deriving DecidableEq

inductive Answer where
  | done
  | bytes (data : List Byte)
  | dirent (dirent : Dirent)
  | made (dirent : Dirent) (node : Nat)
  deriving DecidableEq

def call : Call → Fallible RamFs Errno Answer
  | .write node offset wdata => do
    write node offset wdata
    pure .done
  | .read node offset len writable => do
    let data ← read node offset len writable
    pure (.bytes data)
  | .resize node newSize room => do
    resize node newSize room
    pure .done
  | .makeFile dir name spec fault => do
    let (dirent, node) ← makeFile dir name spec fault
    pure (.made dirent node)
  | .link dir name vnode interrupted => do
    link dir name vnode interrupted
    pure .done
  | .unlink dir name mode => do
    unlink dir name mode
    pure .done
  | .rename dir oldName newName => do
    let dirent ← rename dir oldName newName
    pure (.dirent dirent)
  | .renameTo srcDir srcName destDir destName => do
    let dirent ← renameTo srcDir srcName destDir destName
    pure (.dirent dirent)

end BadgerOS.Ramfs
