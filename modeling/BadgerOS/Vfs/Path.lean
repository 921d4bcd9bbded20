import BadgerOS.Lib.Loop
import BadgerOS.Types

/-!
# Walking a path

`walk_unlocked` and `DentCache::lookup_impl` of the filesystem, on the entries of
one directory tree. An entry of the tree is known by a number; a name that is
absent from a directory has a negative entry. A symbolic link has its target. The
stack of the walker has the rest of each name, the last one first.
-/

namespace BadgerOS.Path

open Loop

abbrev Byte := BitVec 8

/-- A name of a file, or a path. -/
abbrev Name := List Byte

def slash : Byte := 47
def dot : Name := [46]
def dotDot : Name := [46, 46]

def linkMax : Nat := 32
def pathMax : Nat := 4096
def nameMax : Nat := 255

inductive Kind where
  | directory
  | symlink (target : Name)
  | file
  deriving DecidableEq, Repr

/-- A tree of directory entries. -/
structure Tree where
  root : Nat
  kind : Nat → Kind
  /-- The directory that has the entry, and `none` for the root. -/
  parent : Nat → Option Nat
  child : Nat → Name → Option Nat
  root_dir : kind root = .directory
  parent_dir {n p : Nat} : parent n = some p → kind p = .directory

inductive Entry where
  | node (n : Nat)
  | negative (dir : Nat) (name : Name)
  deriving DecidableEq, Repr

namespace Tree

variable (t : Tree)

/-- The type of an entry, `none` for a negative one. -/
def type : Entry → Option Kind
  | .node n => some (t.kind n)
  | .negative _ _ => none

def parentOf : Entry → Option Nat
  | .node n => t.parent n
  | .negative dir _ => some dir

def lookupImpl (loc : Entry) (component : Name) : Except Errno Entry :=
  if component = dot then .ok loc
  else if component = dotDot then
    match t.parentOf loc with
    | some p => .ok (.node p)
    | none => .ok loc
  else match loc with
    | .node n =>
      if t.kind n = .directory then
        match t.child n component with
        | some m => .ok (.node m)
        | none => .ok (.negative n component)
      else .error .enotdir
    | .negative _ _ => .error .enotdir

end Tree

inductive Outcome where
  | ok (entry : Entry)
  | err (e : Errno)
  | panic
  deriving DecidableEq, Repr

structure Walker where
  loc : Entry
  stack : List Name
  linksPassed : Nat
  deriving DecidableEq, Repr

/-- The end of a turn of the loop: `next` was found for a component, `rest` is what
is left of the name and `below` is what is below it on the stack. -/
def arrive (t : Tree) (followLastSymlink : Bool) (s : Walker) (next : Entry) (rest : Name)
    (below : List Name) : Walker ⊕ Outcome :=
  let hasMorePath : Bool := below ≠ [] ∨ rest ≠ []
  match t.type next with
  | none =>
    if hasMorePath then .inr (.err .enoent)
    else .inl { s with loc := next, stack := rest :: below }
  | some (.symlink target) =>
    if followLastSymlink ∨ hasMorePath then
      if s.linksPassed ≥ linkMax then .inr (.err .emlink)
      -- the stack has `LINK_MAX` places
      else if below.length + 1 ≥ linkMax then .inr .panic
      else match target with
        | [] => .inr (.err .enoent)
        | first :: _ => .inl
          { loc := if first = slash then .node t.root else s.loc
            stack := target :: rest :: below
            linksPassed := s.linksPassed + 1 }
    -- a link that is not followed does not become the location
    else .inl { s with stack := rest :: below }
  | some _ => .inl { s with loc := next, stack := rest :: below }

/-- One turn of the loop. -/
def walkStep (t : Tree) (followLastSymlink : Bool) (s : Walker) : Walker ⊕ Outcome :=
  match s.stack with
  | [] => .inr .panic
  | [] :: below =>
    -- pop empty names
    if below = [] then .inr (.ok s.loc) else .inl { s with stack := below }
  | (c :: cs) :: below =>
    if c = slash then
      match t.type s.loc with
      | none => .inr (.err .enoent)
      | some .directory => .inl { s with stack := cs :: below }
      | some _ => .inr (.err .enotdir)
    else
      let component := (c :: cs).takeWhile (· ≠ slash)
      if component.length > nameMax then .inr (.err .enametoolong)
      else match t.lookupImpl s.loc component with
        | .error e => .inr (.err e)
        | .ok next => arrive t followLastSymlink s next ((c :: cs).dropWhile (· ≠ slash)) below

/-- What `walk_unlocked` does before the loop. -/
def walkStart (t : Tree) (loc : Entry) (path : Name) : Walker ⊕ Outcome :=
  if path.length > pathMax then .inr (.err .enametoolong)
  else match path with
    | [] => .inr (.err .enoent)
    | first :: _ =>
      .inl { loc := if first = slash then .node t.root else loc, stack := [path], linksPassed := 0 }

/-- `walk_unlocked`, with at most `fuel` turns of the loop. -/
def walk (t : Tree) (fuel : Nat) (loc : Entry) (path : Name) (followLastSymlink : Bool) :
    Option Outcome :=
  match walkStart t loc path with
  | .inr r => some r
  | .inl s => loop (walkStep t followLastSymlink) fuel s

end BadgerOS.Path
