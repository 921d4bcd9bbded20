import BadgerOS.Lib.Interleaving
import BadgerOS.Vfs.Path
import BadgerOS.Types

/-!
# The directory cache

`DentCache` entries of one filesystem with inode numbers, whose operations behave as
ideal directories. A directory entry has weak references to its children; an entry
lives while the vnode of an open directory, an entry below it or the running call
has it. The walk of a call is any sequence of lookups; the end of a call drops all
that it holds.

`uses_inodes` is true throughout. A filesystem without inode numbers, whose vnodes get a
number of their own when they are opened and keep their cache entry, is not covered.
-/

namespace BadgerOS.DentCache

open Interleaving Function
open BadgerOS.Path (Name Kind dot dotDot)

/-! ### The filesystem -/

/-- Directories by inode number. -/
structure Fs where
  root : Nat
  kind : Nat → Kind
  find : Nat → Name → Option Nat
  /-- Directories that were unlinked. -/
  removed : Nat → Bool
  /-- The next inode number. -/
  next : Nat
  /-- All names that there are or were. -/
  names : List (Nat × Name)

namespace Fs

variable (fs : Fs)

def isEmpty (d : Nat) : Bool := ∀ p ∈ fs.names, p.1 = d → fs.find p.1 p.2 = none

def set (d : Nat) (c : Name) (e : Option Nat) : Fs :=
  { fs with
    find := fun x y => if x = d ∧ y = c then e else fs.find x y
    names := (d, c) :: fs.names }

def unlink (d : Nat) (c : Name) (mode : UnlinkMode) : Except Errno Fs :=
  match fs.find d c with
  | none => .error .enoent
  | some i =>
    if fs.kind i = .directory then
      if mode = .fileOnly then .error .eisdir
      else if fs.isEmpty i then .ok { fs.set d c none with removed := update fs.removed i true }
      else .error .enotempty
    else if mode = .dirOnly then .error .enotdir
    else .ok (fs.set d c none)

def makeFile (d : Nat) (c : Name) (kind : Kind) : Except Errno Fs :=
  match fs.find d c with
  | none => .ok { fs.set d c (some fs.next) with
      kind := update fs.kind fs.next kind
      removed := update fs.removed fs.next false
      next := fs.next + 1 }
  | some _ => .error .eexist

def link (d : Nat) (c : Name) (i : Nat) : Except Errno Fs :=
  match fs.find d c with
  | none => .ok (fs.set d c (some i))
  | some _ => .error .eexist

/-- Within a directory and between two, with the inode of the entry. -/
def rename (d : Nat) (c : Name) (d' : Nat) (c' : Name) : Except Errno (Fs × Nat) :=
  match fs.find d c with
  | none => .error .enoent
  | some i =>
    if d = d' ∧ c = c' then .ok (fs, i)
    else match fs.find d' c' with
      | some _ => .error .eexist
      | none => .ok ((fs.set d c none).set d' c' (some i), i)

end Fs

/-! ### The cache -/

inductive CacheType where
  | negative
  | directory
  | symlink (target : Name)
  | file
  deriving DecidableEq, Repr

def typeOf : Kind → CacheType
  | .directory => .directory
  | .symlink target => .symlink target
  | .file => .file

/-- Entry 0 is the root directory and vnode 0 is its vnode, which the mount has. -/
structure World where
  fs : Fs
  type : Nat → CacheType
  parent : Nat → Option Nat
  /-- `dirent`. -/
  name : Nat → Name
  ino : Nat → Nat
  children : Nat → Name → Option Nat
  vnode : Nat → Option Nat
  next : Nat
  /-- The inode number and `dentcache` of each vnode. -/
  vino : Nat → Nat
  vdent : Nat → Option Nat
  vnext : Nat
  /-- The vnodes of the open files. -/
  files : List Nat
  /-- What the running call has. -/
  held : List Nat

namespace World

variable (w : World)

/-- The entry and those above it. -/
def chain : Nat → Nat → List Nat
  | 0, _ => []
  | fuel + 1, c => c :: match w.parent c with
    | none => []
    | some p => chain fuel p

/-- What has entries apart from the entries below them. -/
def holders : List Nat := 0 :: w.files.filterMap w.vdent ++ w.held

/-- Some strong reference is left. Entries above come before those below. -/
def live (c : Nat) : Bool := ∃ h ∈ w.holders, c ∈ w.chain (h + 1) h

def upgrade (weak : Option Nat) : Option Nat := weak.filter w.live

def vnodeLive (v : Nat) : Bool := v = 0 ∨ v ∈ w.files

def upgradeVnode (weak : Option Nat) : Option Nat := weak.filter w.vnodeLive

def hold (c : Nat) : World := { w with held := c :: w.held }

/-- The end of a call. -/
def release : World := { w with held := [] }

/-- A new entry. -/
def alloc (type : CacheType) (parent : Nat) (name : Name) (ino : Nat) : World :=
  { w with
    type := update w.type w.next type
    parent := update w.parent w.next (some parent)
    name := update w.name w.next name
    ino := update w.ino w.next ino
    children := update w.children w.next fun _ => none
    vnode := update w.vnode w.next none
    next := w.next + 1 }

def setChild (d : Nat) (c : Name) (e : Option Nat) : World :=
  { w with children := update w.children d (update (w.children d) c e) }

def lookupImpl (d : Nat) (component : Name) : Except Errno World :=
  if component = dot then .ok (w.hold d)
  else if component = dotDot then .ok (w.hold ((w.parent d).getD d))
  else if w.type d ≠ .directory then .error .enotdir
  else match w.upgrade (w.children d component) with
    | some c => .ok (w.hold c)
    | none =>
      let w' := match w.fs.find (w.ino d) component with
        | none => w.alloc .negative d component 0
        | some i => w.alloc (typeOf (w.fs.kind i)) d component i
      .ok ((w'.setChild d component (some w.next)).hold w.next)

/-- The vnode that is open for an entry. -/
def vnodeOf (c : Nat) : Option Nat :=
  match w.upgradeVnode (w.vnode c) with
  | some v => some v
  | none => (0 :: w.files).find? fun v => w.vino v = w.ino c

/-- `open_vnode`, for a vnode that stays open. -/
def openVnode (c : Nat) : World :=
  match w.vnodeOf c with
  | some v => { w with vnode := update w.vnode c (some v), files := v :: w.files }
  | none =>
    { w with
      vino := update w.vino w.vnext (w.ino c)
      vdent := update w.vdent w.vnext (if w.type c = .directory then some c else none)
      vnode := update w.vnode c (some w.vnext)
      vnext := w.vnext + 1
      files := w.vnext :: w.files }

/-- `dentcache` of the vnode of a directory. -/
def dentOf (d : Nat) : Nat := ((w.vnodeOf d).bind w.vdent).getD d

/-- The vnode of a new regular file, which has no `dentcache`. -/
def openNew (ino : Nat) : World :=
  { w with
    vino := update w.vino w.vnext ino
    vdent := update w.vdent w.vnext none
    vnext := w.vnext + 1
    files := w.vnext :: w.files }

def oCreatHelper (c : Nat) (exclusive : Bool) : Except Errno World :=
  match w.parent c with
  | none => .error .eio
  | some d =>
    let create : Except Errno World :=
      if w.fs.removed (w.ino d) then .error .enoent
      else do
        let fs ← w.fs.makeFile (w.ino d) (w.name c) .file
        let w' := { w.alloc .file (w.dentOf d) (w.name c) w.fs.next with fs }
        let w' := { w' with vnode := update w'.vnode w.next (some w.vnext) }
        .ok ((w'.openNew w.fs.next).setChild d (w.name c) (some w.next))
    match w.upgrade (w.children d (w.name c)) with
    | none => create
    | some x => match w.type x with
      | .negative => create
      | .directory => .error .eisdir
      | .symlink _ => .error .eagain
      | .file => if exclusive then .error .eexist else .ok (w.openVnode x)

def openFile (c : Nat) (create exclusive : Bool) : Except Errno World :=
  match w.type c with
  | .negative => if create then w.oCreatHelper c exclusive else .error .enoent
  | .directory => if exclusive then .error .eexist else .ok (w.openVnode c)
  | _ => .ok (w.openVnode c)

def link (old new : Nat) : Except Errno World :=
  if w.type old = .directory then .error .eisdir
  else match w.parent old with
    | none => .error .eisdir
    | some d =>
      if w.fs.removed (w.ino d) then .error .enoent
      -- there is no vnode for a negative entry
      else if w.type old = .negative then .error .eio
      else do
        let fs ← w.fs.link (w.ino d) (w.name new) (w.ino old)
        .ok ({ w with fs }.setChild d (w.name new) none)

def unlink (c : Nat) (isRmdir : Bool) : Except Errno World :=
  match w.parent c with
  | none => .error (if isRmdir then .enotempty else .eisdir)
  | some d =>
    if w.fs.removed (w.ino d) then .error .enoent
    else do
      let fs ← w.fs.unlink (w.ino d) (w.name c) (if isRmdir then .dirOnly else .fileOnly)
      .ok ({ w with fs }.setChild d (w.name c) none)

/-- The type of the entry that `make_file` caches; a link has its own name as target. -/
def madeType (kind : Kind) (name : Name) : CacheType :=
  match kind with
  | .directory => .directory
  | .symlink _ => .symlink name
  | .file => .file

def makeFile (c : Nat) (kind : Kind) : Except Errno World :=
  match w.parent c with
  | none => .error .eexist
  | some d =>
    if (w.upgrade (w.children d (w.name c))).any (w.type · ≠ .negative) then .error .eexist
    else if w.fs.removed (w.ino d) then .error .enoent
    else do
      let fs ← w.fs.makeFile (w.ino d) (w.name c) kind
      let w' := { w.alloc (madeType kind (w.name c)) (w.dentOf d) (w.name c) w.fs.next with fs }
      .ok (w'.setChild d (w.name c) (some w.next))

/-- `check_for_entry`. -/
def checkForEntry (d c : Nat) : Except Errno Unit :=
  if w.upgrade (w.children d (w.name c)) = some c then .ok () else .error .etimedout

/-- `rename_check_loops`: the entries above the new directory. -/
def checkLoops (oldDir newDir : Nat) : Except Errno Unit :=
  if oldDir ∈ (w.chain (newDir + 1) newDir).tail then .error .einval else .ok ()

/-- The end of `rename_impl`: `old` is the entry that is removed from the cache. -/
def moveCache (old d d' : Nat) (name : Name) (ino : Nat) : World :=
  let v := w.upgradeVnode (w.vnode old)
  let w' := w.setChild d (w.name old) none
  let w' := w'.alloc (w.type old) d' name ino
  let w' := { w' with
    children := update w'.children w.next (w.children old)
    vnode := update w'.vnode w.next v
    vdent := match v with
      | some v => if (w.vdent v).isSome then update w.vdent v (some w.next) else w.vdent
      | none => w.vdent }
  w'.setChild d' name (some w.next)

/-- What is at the new name is unlinked, in the directory of the old one. -/
def clearTarget (d d' new : Nat) (noreplace : Bool) : Except Errno Fs :=
  if w.type new = .negative then do
    w.checkForEntry d' new
    .ok w.fs
  else if noreplace then .error .eexist
  else w.fs.unlink (w.ino d) (w.name new) .any

/-- `rename_impl`. A failed call leaves its changes behind. -/
def rename (old new : Nat) (noreplace : Bool) : Except (Errno × World) World :=
  let fails {α : Type} (w' : World) (r : Except Errno α) : Except (Errno × World) α :=
    r.mapError fun e => (e, w')
  if w.type old = .negative then .error (.enoent, w)
  else match w.parent old, w.parent new with
    | some d, some d' => do
      fails w (w.checkForEntry d old)
      if w.fs.removed (w.ino d) ∨ w.fs.removed (w.ino d') then .error (.enoent, w)
      else do
        fails w (if d ≠ d' then w.checkLoops d d' else .ok ())
        let fs ← fails w (w.clearTarget d d' new noreplace)
        let w' := { w with fs }
        let (fs, ino) ← fails w' (fs.rename (w.ino d) (w.name old) (w.ino d') (w.name new))
        .ok ({ w with fs }.moveCache old d d' (w.name new) ino)
    | _, _ => .error (.ebusy, w)

end World

inductive Event where
  /-- A walk starts at an open directory, or at the root. -/
  | enter (file : Option Nat)
  | lookup (d : Nat) (component : Name)
  | drop (c : Nat)
  | openFile (c : Nat) (create exclusive : Bool)
  | makeFile (c : Nat) (kind : Kind)
  | link (old new : Nat)
  | unlink (c : Nat) (isRmdir : Bool)
  | rename (old new : Nat) (noreplace : Bool)
  | close (v : Nat)
  deriving DecidableEq, Repr

/-- A call on what it holds. -/
def commit (w : World) (r : Except Errno World) : World :=
  match r with
  | .ok w' => w'.release
  | .error _ => w.release

def step (event : Event) (w : World) : Option World :=
  match event with
  | .enter none => some (w.hold 0)
  | .enter (some v) => if v ∈ w.files then (w.vdent v).map w.hold else none
  | .lookup d component => if d ∈ w.held then (w.lookupImpl d component).toOption else none
  | .drop c => some { w with held := w.held.erase c }
  | .openFile c create exclusive =>
    if c ∈ w.held then some (commit w (w.openFile c create exclusive)) else none
  | .makeFile c kind => if c ∈ w.held then some (commit w (w.makeFile c kind)) else none
  | .link old new => if old ∈ w.held ∧
    new ∈ w.held then some (commit w (w.link old new)) else none
  | .unlink c isRmdir => if c ∈ w.held then some (commit w (w.unlink c isRmdir)) else none
  | .rename old new noreplace =>
    if old ∈ w.held ∧ new ∈ w.held then
      match w.rename old new noreplace with
      | .ok w' => some w'.release
      | .error (_, w') => some w'.release
    else none
  | .close v => some { w with files := w.files.erase v }

/-- A filesystem of which nothing is cached yet. -/
def mounted (fs : Fs) : World where
  fs
  type _ := .directory
  parent _ := none
  name _ := [Path.slash]
  ino _ := fs.root
  children _ _ := none
  vnode _ := some 0
  next := 1
  vino _ := fs.root
  vdent _ := some 0
  vnext := 1
  files := []
  held := []

end BadgerOS.DentCache
