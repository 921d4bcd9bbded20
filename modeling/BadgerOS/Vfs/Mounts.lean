import BadgerOS.Lib.Interleaving
import BadgerOS.Lib.Outcome
import BadgerOS.Vfs.Path
import BadgerOS.Types

/-!
# Mounts

`mount`, `walk_unlocked`, `DentCache::lookup`, `enter_mounts` and `exit_mounts`. The
directory trees do not change. A directory cache entry is known by its filesystem
and its place in the tree there. A `Mount` never changes once it is made, so it is
a value that has its mount point in it.
-/

namespace BadgerOS.Mounts

open Interleaving Loop
open BadgerOS.Path (Name Kind Entry slash dot dotDot linkMax pathMax nameMax)

/-- A filesystem. -/
structure Volume extends Path.Tree where
  /-- `dirent.ino` of each entry. -/
  ino : Nat → Nat
  usesInodes : Bool
  parent_child {n m : Nat} {name : Name} : child n name = some m → parent m = some n
  root_parent : parent root = none
  root_ino {n : Nat} : ino n = ino root → n = root
  root_ino_ne_zero : ino root ≠ 0

structure Cache where
  vfs : Nat
  entry : Entry
  deriving DecidableEq, Repr

inductive Mount where
  | first (vfs : Nat)
  /-- With the directory and the mount of `parent`. -/
  | within (vfs : Nat) (cache : Cache) (mount : Mount)
  deriving DecidableEq, Repr

def Mount.vfs : Mount → Nat
  | .first vfs => vfs
  | .within vfs _ _ => vfs

/-- `CacheLoc`, and `VfsLoc` with the cache entry of its vnode. -/
structure Loc where
  cache : Cache
  mount : Mount
  deriving DecidableEq, Repr

/-- The mount table, `mounted` of all cache entries, and the open files. -/
structure Table where
  all : List Mount
  mounted : Cache → Option Mount
  files : List Loc
  /-- The filesystem that a driver makes next. -/
  next : Nat

inductive FsType where
  | devtmpfs
  | driver
  deriving DecidableEq, Repr

/-- There is one instance of devtmpfs. -/
def Table.vfsOf (s : Table) : FsType → Nat
  | .devtmpfs => 0
  | .driver => s.next

section Model

variable (v : Nat → Volume)

namespace Cache

variable (c : Cache)

def type : Option Kind := (v c.vfs).type c.entry

def ino : Nat :=
  match c.entry with
  | .node n => (v c.vfs).ino n
  | .negative _ _ => 0

def parent : Option Cache := ((v c.vfs).parentOf c.entry).map fun p => ⟨c.vfs, .node p⟩

end Cache

def rootCache (vfs : Nat) : Cache := ⟨vfs, .node (v vfs).root⟩

def Mount.rootLoc (m : Mount) : Loc := ⟨rootCache v m.vfs, m⟩

/-- `root_loc_unlocked`: the first mount is the root. -/
def Table.rootLoc (s : Table) : Outcome Errno Loc :=
  match s.all with
  | [] => .err .eagain
  | m :: _ => .ok (m.rootLoc v)

def exitMounts (cache : Cache) : Mount → Loc
  | .first vfs => ⟨cache, .first vfs⟩
  | .within vfs point mount =>
    if cache.ino v = (rootCache v vfs).ino v then exitMounts point mount
    else ⟨cache, .within vfs point mount⟩

/-- One turn of the loop of `enter_mounts`. -/
def enterStep (s : Table) (loc : Loc) : Loc ⊕ Loc :=
  match s.mounted loc.cache with
  | some m => .inl (m.rootLoc v)
  | none => .inr loc

/-- A loop that goes through more mounts than there are has come to one of them
twice, and does not end. -/
def enterMounts (s : Table) (loc : Loc) : Outcome Errno Loc :=
  match loop (enterStep v s) (s.all.length + 1) loc with
  | some r => .ok r
  | none => .hang

def lookupImpl (s : Table) (loc : Loc) (component : Name) : Outcome Errno Loc :=
  if component = dot then .ok loc
  else if component = dotDot then
    let loc := exitMounts v loc.cache loc.mount
    match loc.cache.parent v with
    | some p => .ok ⟨p, loc.mount⟩
    | none => .ok loc
  else do
    let loc ← enterMounts v s loc
    match loc.cache.entry with
    | .node n =>
      if (v loc.cache.vfs).kind n = .directory then
        match (v loc.cache.vfs).child n component with
        | some m => .ok ⟨⟨loc.cache.vfs, .node m⟩, loc.mount⟩
        | none => .ok ⟨⟨loc.cache.vfs, .negative n component⟩, loc.mount⟩
      else .err .enotdir
    | .negative _ _ => .err .enotdir

def lookup (s : Table) (loc : Loc) (component : Name) : Outcome Errno Loc :=
  lookupImpl v s loc component >>= enterMounts v s

structure Walker where
  loc : Loc
  stack : List Name
  linksPassed : Nat
  deriving DecidableEq, Repr

/-- The end of a turn of the loop of `walk_unlocked`: `next` was found for a
component, `rest` is what is left of the name and `below` is what is below it on
the stack. -/
def arrive (root : Loc) (followLastSymlink : Bool) (w : Walker) (next : Loc) (rest : Name)
    (below : List Name) : Walker ⊕ Outcome Errno Loc :=
  let hasMorePath : Bool := below ≠ [] ∨ rest ≠ []
  match next.cache.type v with
  | none =>
    if hasMorePath then .inr (.err .enoent)
    else .inl { w with loc := next, stack := rest :: below }
  | some (.symlink target) =>
    if followLastSymlink ∨ hasMorePath then
      if w.linksPassed ≥ linkMax then .inr (.err .emlink)
      -- the stack has `LINK_MAX` places
      else if below.length + 1 ≥ linkMax then .inr .panic
      else match target with
        | [] => .inr (.err .enoent)
        | first :: _ => .inl
          { loc := if first = slash then root else w.loc
            stack := target :: rest :: below
            linksPassed := w.linksPassed + 1 }
    -- a link that is not followed does not become the location
    else .inl { w with stack := rest :: below }
  | some _ => .inl { w with loc := next, stack := rest :: below }

/-- One turn of the loop. -/
def walkStep (s : Table) (root : Loc) (followLastSymlink : Bool) (w : Walker) :
    Walker ⊕ Outcome Errno Loc :=
  match w.stack with
  | [] => .inr .panic
  | [] :: below =>
    -- pop empty names
    if below = [] then .inr (.ok w.loc) else .inl { w with stack := below }
  | (c :: cs) :: below =>
    if c = slash then
      match w.loc.cache.type v with
      | none => .inr (.err .enoent)
      | some .directory => .inl { w with stack := cs :: below }
      | some _ => .inr (.err .enotdir)
    else
      let component := (c :: cs).takeWhile (· ≠ slash)
      if component.length > nameMax then .inr (.err .enametoolong)
      else match lookup v s w.loc component with
        | .ok next => arrive v root followLastSymlink w next
          ((c :: cs).dropWhile (· ≠ slash)) below
        | .err e => .inr (.err e)
        | .panic => .inr .panic
        | .hang => .inr .hang

/-- `walk_unlocked`, with at most `fuel` turns of the loop. -/
def walk (s : Table) (fuel : Nat) (loc : Loc) (path : Name) (followLastSymlink : Bool) :
    Outcome Errno Loc := do
  if path.length > pathMax then .err .enametoolong
  else match path with
    | [] => .err .enoent
    | first :: _ =>
      let root ← s.rootLoc v
      let loc := if first = slash then root else loc
      match loop (walkStep v s root followLastSymlink) fuel ⟨loc, [path], 0⟩ with
      | some r => r
      | none => .hang

/-- `vfs_loc_unlocked`, with the place of a file among the open ones. -/
def vfsLoc (s : Table) : Option Nat → Outcome Errno Loc
  | some i => match s.files[i]? with
    | some loc => .ok loc
    | none => .err .enotdir
  | none => s.rootLoc v

/-- `VfsLoc::to_cache`: a vnode of a directory has its cache entry, and so has every
vnode if there are no inode numbers. -/
def toCache (loc : Loc) : Outcome Errno Loc :=
  if loc.cache.type v = some .directory ∨ (v loc.cache.vfs).usesInodes = false then .ok loc
  else .err .enotdir

/-- The place that a path is walked to by `open` and `mount`, of which the vnode is
opened. -/
def locate (s : Table) (fuel : Nat) (start : Loc) (path : Name) (follow : Bool) :
    Outcome Errno Loc := do
  let loc ← toCache v start
  let res ← walk v s fuel loc path follow
  -- there is no vnode for a negative entry
  if res.cache.type v = none then .err .eio else .ok res

def openFile (s : Table) (file : Option Nat) (path : Name) (follow : Bool) (fuel : Nat) :
    Outcome Errno Table := do
  let start ← vfsLoc v s file
  let res ← locate v s fuel start path follow
  .ok { s with files := s.files ++ [res] }

/-- `parent` of the mount to be made. -/
def mountParent (s : Table) (file : Option Nat) (path : Name) (follow : Bool) (fuel : Nat) :
    Outcome Errno (Option Loc) :=
  if s.all ≠ [] then do
    let loc ← vfsLoc v s file
    let res ← locate v s fuel loc path follow
    -- the mount is that of the place where the walk started
    .ok (some ⟨res.cache, loc.mount⟩)
  else if path ≠ [slash] then .err .einval
  else .ok none

/-- Take `m` into the table. -/
def Table.push (s : Table) (m : Mount) : Table :=
  { s with all := s.all ++ [m], next := max s.next (m.vfs + 1) }

def mount (s : Table) (file : Option Nat) (path : Name) (follow : Bool) (fuel : Nat) (fs : FsType) :
    Outcome Errno Table := do
  match ← mountParent v s file path follow fuel with
  | none => .ok (s.push (.first (s.vfsOf fs)))
  | some parent =>
    if parent.cache.type v ≠ some .directory then .panic
    else do
      let loc ← enterMounts v s parent
      let m : Mount := .within (s.vfsOf fs) parent.cache parent.mount
      .ok { s.push m with mounted := Function.update s.mounted loc.cache (some m) }

/-- A call, with the turns that its walk takes at most. -/
inductive Call where
  | openFile (file : Option Nat) (path : Name) (follow : Bool) (fuel : Nat)
  | mount (file : Option Nat) (path : Name) (follow : Bool) (fuel : Nat) (fs : FsType)
  deriving DecidableEq, Repr

def Call.run (s : Table) : Call → Outcome Errno Table
  | .openFile file path follow fuel => Mounts.openFile v s file path follow fuel
  | .mount file path follow fuel fs => Mounts.mount v s file path follow fuel fs

/-- Only calls that succeed. -/
def step (call : Call) (s : Table) : Option Table :=
  match call.run v s with
  | .ok s' => some s'
  | _ => none

end Model

/-- Nothing is mounted. -/
def start : Table := ⟨[], fun _ => none, [], 1⟩

/-- Resolve `..` again and again. -/
def ascend (v : Nat → Volume) (s : Table) : Nat → Loc → Outcome Errno Loc
  | 0, loc => .ok loc
  | n + 1, loc => lookup v s loc dotDot >>= ascend v s n

def Ordinary (name : Name) : Prop := name ≠ [] ∧ slash ∉ name ∧ name ≠ dot ∧
    name ≠ dotDot

instance (name : Name) : Decidable (Ordinary name) := inferInstanceAs (Decidable (_ ∧ _))

/-- `names` lead from directory to directory, without symbolic links. -/
inductive Descends (v : Nat → Volume) (s : Table) (top : Loc) : List Name → Loc → Prop
  | here : Descends v s top [] top
  | down {names : List Name} {dir d : Loc} {name : Name} (above : Descends v s top names dir)
      (ordinary : Ordinary name) (found : lookup v s dir name = .ok d)
      (isDir : d.cache.type v = some .directory) : Descends v s top (names ++ [name]) d

def SameDirectory (x y : Outcome Errno Loc) : Prop := ∃ a b, x = .ok a ∧ y = .ok b ∧
    a.cache = b.cache

/-- `..` leads from each directory to the one where its name was looked up, which is
the one that is mounted there, and at last to the root. -/
def Invertible (v : Nat → Volume) (s : Table) : Prop :=
  ∀ {root dir d : Loc} {names : List Name} {name : Name}, s.rootLoc v = .ok root →
    Descends v s root names dir → Ordinary name → lookup v s dir name = .ok d →
    d.cache.type v = some .directory →
    SameDirectory (lookup v s d dotDot) (enterMounts v s dir) ∧
    SameDirectory (ascend v s (names.length + 1) d) (enterMounts v s root)

end BadgerOS.Mounts
