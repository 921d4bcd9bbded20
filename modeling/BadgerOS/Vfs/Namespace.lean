import BadgerOS.Lib.Outcome
import BadgerOS.Vfs.Path
import BadgerOS.Types

/-!
# Names in directories

`open`, `link`, `unlink`, `make_file` and `rename` on a filesystem whose operations
behave as ideal directories: they change one entry or fail and change nothing. The
directory cache shows the tree, as in the walk.
-/

namespace BadgerOS.Namespace

open Function Nat

open BadgerOS.Path (Name Kind Entry slash)

/-- A tree of directory entries, with the name and the inode of each entry. Entries
that were removed keep their numbers. -/
structure Fs extends Path.Tree where
  name : Nat → Name
  ino : Nat → Nat
  /-- The numbers of the next entry and the next inode. -/
  next : Nat
  nextIno : Nat
  readOnly : Bool
  root_parent : parent root = none
  root_name : name root = [slash]
  root_lt : root < next
  parent_lt {n p : Nat} : parent n = some p → p < next
  child_parent {d n : Nat} {c : Name} : child d c = some n → parent n = some d
  child_name {d n : Nat} {c : Name} : child d c = some n → name n = c
  child_lt {d n : Nat} {c : Name} : child d c = some n → n < next
  child_dir {d n : Nat} {c : Name} : child d c = some n → kind d = .directory
  /-- The directory of an entry is the root or has an entry itself. -/
  child_attached {d n : Nat} {c : Name} : child d c = some n →
    d = root ∨ ∃ p, parent d = some p ∧ child p (name d) = some d
  ino_lt {n : Nat} : n < next → ino n < nextIno
  ino_kind {n m : Nat} : n < next → m < next → ino n = ino m → kind n = kind m

namespace Fs

variable (fs : Fs) {d n m : Nat}

/-- The inode that a name designates in a directory. -/
def find (d : Nat) (c : Name) : Option Nat := (fs.child d c).map fs.ino

/-- In the tree. -/
def Attached (n : Nat) : Prop := n = fs.root ∨ ∃ p, fs.parent n = some p ∧
    fs.child p (fs.name n) = some n

/-- A directory that was not removed. -/
def Usable (d : Nat) : Prop := fs.kind d = .directory ∧ fs.Attached d

instance (n : Nat) : Decidable (fs.Attached n) :=
  match h : fs.parent n with
  | none => decidable_of_iff (n = fs.root) (by simp [Attached, h])
  | some p => decidable_of_iff (n = fs.root ∨ fs.child p (fs.name n) = some n)
    (by simp [Attached, h])

instance (d : Nat) : Decidable (fs.Usable d) := inferInstanceAs (Decidable (_ ∧ _))

/-- All entries of a directory have numbers before the next. -/
def isEmpty (d : Nat) : Bool := ∀ n < fs.next, fs.child d (fs.name n) ≠ some n

theorem child_eq_none_of_isEmpty (h : fs.isEmpty d = true) (c : Name) : fs.child d c = none := by
  cases hc : fs.child d c with
  | none => rfl
  | some n =>
    have h := of_decide_eq_true h n (fs.child_lt hc)
    rw [fs.child_name hc] at h
    exact absurd hc h

theorem child_eq_none_of_kind (h : fs.kind d ≠ .directory) (c : Name) : fs.child d c = none := by
  cases hc : fs.child d c with
  | none => rfl
  | some n => exact absurd (fs.child_dir hc) h

theorem Attached.lt {fs : Fs} (h : fs.Attached n) : n < fs.next := by
  rcases h with rfl | ⟨p, -, child⟩
  · exact fs.root_lt
  · exact fs.child_lt child

/-- The entries after a change at one name. -/
def setChild (d : Nat) (c : Name) (e : Option Nat) (x : Nat) (y : Name) : Option Nat :=
  if x = d ∧ y = c then e else fs.child x y

theorem setChild_same (d : Nat) (c : Name) (e : Option Nat) : fs.setChild d c e d c = e :=
  if_pos ⟨rfl, rfl⟩

variable {x : Nat} {c y : Name}

theorem setChild_other (e : Option Nat) (h : ¬(x = d ∧ y = c)) :
    fs.setChild d c e x y = fs.child x y := if_neg h

/-- A changed entry is the new one or an old one. -/
theorem setChild_eq_some {e : Option Nat} (h : fs.setChild d c e x y = some n) :
    (x = d ∧ y = c ∧ e = some n) ∨ fs.child x y = some n := by
  by_cases here : x = d ∧ y = c
  · obtain ⟨rfl, rfl⟩ := here
    rw [setChild_same] at h
    exact .inl ⟨rfl, rfl, h⟩
  · rw [setChild_other _ _ here] at h
    exact .inr h

/-- The entries after entry `n` has moved. -/
def moveChild (n d : Nat) (c : Name) (d' : Nat) (c' : Name) (x : Nat) (y : Name) : Option Nat :=
  if x = d' ∧ y = c' then some n else if x = d ∧ y = c then none else fs.child x y

/-- It is the moved entry or another one. -/
theorem moveChild_eq_some {d' : Nat} {c' : Name} (found : fs.child d c = some n)
    (h : fs.moveChild n d c d' c' x y = some m) : (x = d' ∧ y = c' ∧ m = n) ∨
    (m ≠ n ∧ fs.child x y = some m) := by
  unfold moveChild at h
  split at h
  · rename_i here
    exact .inl ⟨here.1, here.2, (Option.some.inj h).symm⟩
  · split at h
    · cases h
    · rename_i other
      refine .inr ⟨?_, h⟩
      rintro rfl
      have parent := (fs.child_parent h).symm.trans (fs.child_parent found)
      exact other ⟨Option.some.inj parent, (fs.child_name h).symm.trans (fs.child_name found)⟩

theorem moveChild_of_ne {d' : Nat} {c' : Name} (found : fs.child d c = some n)
    (absent : fs.child d' c' = none) (hm : m ≠ n) (h : fs.child x y = some m) :
    fs.moveChild n d c d' c' x y = some m := by
  unfold moveChild
  rw [if_neg, if_neg]
  · exact h
  · rintro ⟨rfl, rfl⟩
    exact hm (Option.some.inj (h.symm.trans found))
  · rintro ⟨rfl, rfl⟩
    rw [absent] at h
    cases h

theorem root_ne (found : fs.child d c = some n) : fs.root ≠ n := by
  rintro rfl
  have parent := fs.child_parent found
  rw [fs.root_parent] at parent
  cases parent

/-- Take away an entry that has no entries below it. -/
def remove (d : Nat) (c : Name) (bare : ∀ {n}, fs.child d c = some n → ∀ c', fs.child n c' = none) :
    Fs :=
  have old {d' n : Nat} {c' : Name} (h : fs.setChild d c none d' c' = some n) :
      fs.child d' c' = some n := by
    obtain ⟨-, -, ⟨⟩⟩ | h := fs.setChild_eq_some h
    exact h
  { fs with
    child := fs.setChild d c none
    child_parent := fun h => fs.child_parent (old h)
    child_name := fun h => fs.child_name (old h)
    child_lt := fun h => fs.child_lt (old h)
    child_dir := fun h => fs.child_dir (old h)
    child_attached := fun h => by
      rcases fs.child_attached (old h) with root | ⟨p, parent, child⟩
      · exact .inl root
      · refine .inr ⟨p, parent, ?_⟩
        rw [setChild_other]
        · exact child
        · rintro ⟨rfl, rfl⟩
          have entry := old h
          rw [bare child] at entry
          cases entry }

/-- A new entry. -/
def add (d : Nat) (c : Name) (kind : Kind) (ino : Nat) (usable : fs.Usable d)
    (absent : fs.child d c = none)
    (sameKind : ∀ {n}, n < fs.next → fs.ino n = ino → fs.kind n = kind) : Fs :=
  have dirLt : d < fs.next := usable.2.lt
  { fs with
    child := fs.setChild d c (some fs.next)
    kind := update fs.kind fs.next kind
    parent := update fs.parent fs.next (some d)
    name := update fs.name fs.next c
    ino := update fs.ino fs.next ino
    next := fs.next + 1
    nextIno := max fs.nextIno (ino + 1)
    root_dir := by
      rw [update_of_ne fs.root_lt.ne]
      exact fs.root_dir
    parent_dir := fun {n p} h => by
      by_cases hn : n = fs.next
      · subst hn
        rw [update_self] at h
        cases h
        rw [update_of_ne dirLt.ne]
        exact usable.1
      · rw [update_of_ne hn] at h
        rw [update_of_ne (fs.parent_lt h).ne]
        exact fs.parent_dir h
    root_parent := by
      rw [update_of_ne fs.root_lt.ne]
      exact fs.root_parent
    root_name := by
      rw [update_of_ne fs.root_lt.ne]
      exact fs.root_name
    root_lt := lt_succ_of_lt fs.root_lt
    parent_lt := fun {n p} h => by
      by_cases hn : n = fs.next
      · subst hn
        rw [update_self] at h
        cases h
        exact lt_succ_of_lt dirLt
      · rw [update_of_ne hn] at h
        exact lt_succ_of_lt (fs.parent_lt h)
    child_parent := fun h => by
      obtain ⟨rfl, rfl, ⟨⟩⟩ | h := fs.setChild_eq_some h
      · exact update_self ..
      · rw [update_of_ne (fs.child_lt h).ne]
        exact fs.child_parent h
    child_name := fun h => by
      obtain ⟨rfl, rfl, ⟨⟩⟩ | h := fs.setChild_eq_some h
      · exact update_self ..
      · rw [update_of_ne (fs.child_lt h).ne]
        exact fs.child_name h
    child_lt := fun h => by
      obtain ⟨-, -, ⟨⟩⟩ | h := fs.setChild_eq_some h
      · exact lt_succ_self _
      · exact lt_succ_of_lt (fs.child_lt h)
    child_dir := fun h => by
      obtain ⟨rfl, rfl, ⟨⟩⟩ | h := fs.setChild_eq_some h
      · rw [update_of_ne dirLt.ne]
        exact usable.1
      · rw [update_of_ne (Attached.lt (fs.child_attached h)).ne]
        exact fs.child_dir h
    child_attached := fun {d' n c'} h => by
      have attached : fs.Attached d' := by
        obtain ⟨rfl, rfl, ⟨⟩⟩ | h := fs.setChild_eq_some h
        · exact usable.2
        · exact fs.child_attached h
      have old := attached.lt.ne
      rw [update_of_ne old, update_of_ne old]
      rcases attached with root | ⟨p, parent, child⟩
      · exact .inl root
      · refine .inr ⟨p, parent, ?_⟩
        rw [setChild_other]
        · exact child
        · rintro ⟨rfl, rfl⟩
          rw [absent] at child
          cases child
    ino_lt := fun {n} h => by
      by_cases hn : n = fs.next
      · subst hn
        rw [update_self]
        exact (lt_succ_self _).trans_le (Nat.le_max_right ..)
      · rw [update_of_ne hn]
        have := fs.ino_lt (Nat.lt_of_le_of_ne (le_of_lt_succ h) hn)
        omega
    ino_kind := fun {n m} hn hm same => by
      have low {n : Nat} (h : n < fs.next + 1) (hn : n ≠ fs.next) : n < fs.next := by omega
      by_cases en : n = fs.next
      · by_cases em : m = fs.next
        · rw [en, em]
        · subst en
          rw [update_self, update_of_ne em] at same ⊢
          exact (sameKind (low hm em) same.symm).symm
      · by_cases em : m = fs.next
        · subst em
          rw [update_of_ne en, update_self] at same ⊢
          exact sameKind (low hn en) same
        · rw [update_of_ne en, update_of_ne em] at same ⊢
          exact fs.ino_kind (low hn en) (low hm em) same }

/-- Move an entry to an absent name. -/
def move {n : Nat} (d : Nat) (c : Name) (d' : Nat) (c' : Name) (found : fs.child d c = some n)
    (usable : fs.Usable d') (absent : fs.child d' c' = none) : Fs :=
  { fs with
    child := fs.moveChild n d c d' c'
    parent := update fs.parent n (some d')
    name := update fs.name n c'
    parent_dir := fun {m p} h => by
      by_cases hm : m = n
      · subst hm
        rw [update_self] at h
        cases h
        exact usable.1
      · rw [update_of_ne hm] at h
        exact fs.parent_dir h
    root_parent := by
      rw [update_of_ne (fs.root_ne found)]
      exact fs.root_parent
    root_name := by
      rw [update_of_ne (fs.root_ne found)]
      exact fs.root_name
    parent_lt := fun {m p} h => by
      by_cases hm : m = n
      · subst hm
        rw [update_self] at h
        cases h
        exact usable.2.lt
      · rw [update_of_ne hm] at h
        exact fs.parent_lt h
    child_parent := fun h => by
      obtain ⟨rfl, rfl, rfl⟩ | ⟨hm, h⟩ := fs.moveChild_eq_some found h
      · exact update_self ..
      · rw [update_of_ne hm]
        exact fs.child_parent h
    child_name := fun h => by
      obtain ⟨rfl, rfl, rfl⟩ | ⟨hm, h⟩ := fs.moveChild_eq_some found h
      · exact update_self ..
      · rw [update_of_ne hm]
        exact fs.child_name h
    child_lt := fun h => by
      obtain ⟨rfl, rfl, rfl⟩ | ⟨hm, h⟩ := fs.moveChild_eq_some found h
      · exact fs.child_lt found
      · exact fs.child_lt h
    child_dir := fun h => by
      obtain ⟨rfl, rfl, rfl⟩ | ⟨hm, h⟩ := fs.moveChild_eq_some found h
      · exact usable.1
      · exact fs.child_dir h
    child_attached := fun {x m y} h => by
      have attached : fs.Attached x := by
        obtain ⟨rfl, rfl, rfl⟩ | ⟨hm, h⟩ := fs.moveChild_eq_some found h
        · exact usable.2
        · exact fs.child_attached h
      by_cases hx : x = n
      · subst hx
        refine .inr ⟨d', update_self .., ?_⟩
        rw [update_self]
        exact if_pos ⟨rfl, rfl⟩
      · rcases attached with root | ⟨p, parent, entry⟩
        · exact .inl root
        · refine .inr ⟨p, ?_, ?_⟩
          · rw [update_of_ne hx]
            exact parent
          · rw [update_of_ne hx]
            exact fs.moveChild_of_ne found absent hx entry }

theorem bare_of_isEmpty (found : fs.child d c = some n) (h : fs.isEmpty n = true)
    (found' : fs.child d c = some m) (c' : Name) : fs.child m c' = none := by
  cases found.symm.trans found'
  exact fs.child_eq_none_of_isEmpty h c'

theorem bare_of_kind (found : fs.child d c = some n) (h : fs.kind n ≠ .directory)
    (found' : fs.child d c = some m) (c' : Name) : fs.child m c' = none := by
  cases found.symm.trans found'
  exact fs.child_eq_none_of_kind h c'

/-! ### The operations of the filesystem -/

/-- `VNodeOps::unlink`. -/
def unlinkEntry (d : Nat) (c : Name) (mode : UnlinkMode) : Outcome Errno Fs :=
  match found : fs.child d c with
  | none => .err .enoent
  | some n =>
    if dir : fs.kind n = .directory then
      if mode = .fileOnly then .err .eisdir
      else if empty : fs.isEmpty n = true then .ok (fs.remove d c (fs.bare_of_isEmpty found empty))
      else .err .enotempty
    else if mode = .dirOnly then .err .enotdir
    else .ok (fs.remove d c (fs.bare_of_kind found dir))

/-- `VNodeOps::make_file`. -/
def makeEntry (d : Nat) (c : Name) (kind : Kind) (usable : fs.Usable d) : Outcome Errno Fs :=
  if absent : fs.child d c = none then
    .ok (fs.add d c kind fs.nextIno usable absent fun lt same => absurd same ((fs.ino_lt lt).ne))
  else .err .eexist

/-- `VNodeOps::link`, with an entry `n` of the inode. -/
def linkEntry (d : Nat) (c : Name) (n : Nat) (usable : fs.Usable d) (lt : n < fs.next) :
    Outcome Errno Fs :=
  if absent : fs.child d c = none then
    .ok (fs.add d c (fs.kind n) (fs.ino n) usable absent fun lt' same => fs.ino_kind lt' lt same)
  else .err .eexist

/-- `VfsOps::rename`. -/
def moveEntry (d : Nat) (c : Name) (d' : Nat) (c' : Name) (usable : fs.Usable d') :
    Outcome Errno Fs :=
  match found : fs.child d c with
  | none => .err .enoent
  | some _ => if absent : fs.child d' c' = none then .ok (fs.move d c d' c' found usable absent)
    else .err .eexist

/-- `VNodeOps::rename`. -/
def renameEntry (d : Nat) (c c' : Name) (usable : fs.Usable d) : Outcome Errno Fs :=
  if c = c' then
    match fs.child d c with
    | none => .err .enoent
    | some _ => .ok fs
  else fs.moveEntry d c d c' usable

/-! ### The calls -/

/-- `VfsLoc::to_cache`. -/
def toCache (n : Nat) : Outcome Errno Nat := if fs.kind n = .directory then .ok n else .err .enotdir

/-- `walk`, with at most `fuel` turns of its loop. -/
def walk (fuel n : Nat) (path : Name) (followLastSymlink : Bool) : Outcome Errno Entry :=
  match Path.walk fs.toTree fuel (.node n) path followLastSymlink with
  | some (.ok e) => .ok e
  | some (.err e) => .err e
  | some .panic => .panic
  | none => .hang

def nameOf : Entry → Name
  | .node n => fs.name n
  | .negative _ c => c

structure OFlags where
  create : Bool
  exclusive : Bool
  dirOnly : Bool
  fileOnly : Bool
  readOnly : Bool
  writeOnly : Bool
  append : Bool
  truncate : Bool
  nofollow : Bool
  deriving DecidableEq, Repr

def OFlags.invalid (o : OFlags) : Bool :=
  if o.dirOnly ∧ (o.create ∨ o.exclusive ∨ o.fileOnly ∨ o.writeOnly ∨ o.append ∨
    o.truncate) then true
  else if o.append ∧ ¬o.writeOnly then true
  -- neither read nor write: assume read
  else if ¬(o.readOnly ∨ o.writeOnly) then false
  else o.exclusive ∧ ¬o.create

/-- Of the entries for the name in the cache, the negative one is found. -/
def oCreatHelper (d : Nat) (c : Name) : Outcome Errno Fs :=
  if usable : fs.Usable d then fs.makeEntry d c .file usable else .err .enoent

/-- `open`, with the new tree and the inode that is opened. `refuses` has the errors
that the file operations of an inode give. -/
def openFile (refuses : Nat → Option Errno) (fuel file : Nat) (path : Name) (o : OFlags) :
    Outcome Errno (Fs × Nat) := do
  if o.invalid then .err .einval
  else do
    let start ← fs.toCache file
    let opened (n : Nat) : Outcome Errno (Fs × Nat) :=
      match refuses (fs.ino n) with
      | some e => .err e
      | none => .ok (fs, fs.ino n)
    match ← fs.walk fuel start path (!o.nofollow) with
    | .negative d c =>
      if ¬o.create then .err .enoent
      else if fs.readOnly then .err .erofs
      else do
        let fs' ← fs.oCreatHelper d c
        .ok (fs', fs.nextIno)
    | .node n =>
      if fs.kind n = .directory then
        if o.exclusive then .err .eexist
        else if o.fileOnly then .err .eisdir
        else opened n
      -- not checked for `EXCLUSIVE`
      else if o.dirOnly then .err .enotdir
      else opened n

def link (fuel oldFile : Nat) (oldPath : Name) (newFile : Nat) (newPath : Name)
    (followLinks : Bool) : Outcome Errno Fs := do
  let oldAt ← fs.toCache oldFile
  let newAt ← fs.toCache newFile
  let old ← fs.walk fuel oldAt oldPath followLinks
  let new ← fs.walk fuel newAt newPath followLinks
  if fs.type old = some .directory then .err .eisdir
  else match fs.parentOf old with
    | none => .err .eisdir
    -- both directories are the one of `old`
    | some p =>
      if fs.readOnly then .err .erofs
      else if usable : fs.Usable p then
        match old with
        -- there is no vnode for a negative entry
        | .negative _ _ => .err .eio
        | .node n =>
          if lt : n < fs.next then fs.linkEntry p (fs.nameOf new) n usable lt else .err .eio
      else .err .enoent

def unlink (fuel file : Nat) (path : Name) (isRmdir : Bool) : Outcome Errno Fs := do
  let start ← fs.toCache file
  let toRemove ← fs.walk fuel start path false
  match fs.parentOf toRemove with
  | none => .err (if isRmdir then .enotempty else .eisdir)
  | some p =>
    if fs.readOnly then .err .erofs
    else if ¬fs.Usable p then .err .enoent
    else fs.unlinkEntry p (fs.nameOf toRemove) (if isRmdir then .dirOnly else .fileOnly)

def makeFile (fuel file : Nat) (path : Name) (kind : Kind) : Outcome Errno Fs := do
  let start ← fs.toCache file
  let toCreate ← fs.walk fuel start path false
  match fs.parentOf toCreate, toCreate with
  | none, _ => .err .eexist
  | some _, .node _ => .err .eexist
  | some p, .negative _ c =>
    if usable : fs.Usable p then if fs.readOnly then .err .erofs else fs.makeEntry p c kind usable
    else .err .enoent

/-- `rename_check_loops`, with at most `fuel` turns. -/
def renameCheckLoops (old : Nat) : Nat → Nat → Outcome Errno Unit
  | 0, _ => .hang
  | fuel + 1, new => match fs.parent new with
    | none => .ok ()
    | some p => if p = old then .err .einval else renameCheckLoops old fuel p

/-- Remove what is at the new name. In both cases it is looked for in the directory of
the old one. -/
def replace (oldDir : Nat) (new : Entry) (noreplace : Bool) : Outcome Errno Fs :=
  match new with
  | .node m => if noreplace then .err .eexist else fs.unlinkEntry oldDir (fs.name m) .any
  | .negative _ _ => .ok fs

/-- `rename_impl`. The checks of the cache for another thread succeed. -/
def rename (fuel oldFile : Nat) (oldPath : Name) (newFile : Nat) (newPath : Name)
    (noreplace : Bool) : Outcome Errno Fs := do
  let oldAt ← fs.toCache oldFile
  let newAt ← fs.toCache newFile
  match ← fs.walk fuel oldAt oldPath false with
  | .negative _ _ => .err .enoent
  | .node n => do
    let new ← fs.walk fuel newAt newPath false
    match fs.parent n, fs.parentOf new with
    | some p, some q =>
      if ¬fs.Usable p ∨ ¬fs.Usable q then .err .enoent
      else if fs.readOnly then .err .erofs
      else if p = q then do
        let fs' ← fs.replace p new noreplace
        if usable : fs'.Usable p then fs'.renameEntry p (fs.name n) (fs.nameOf new) usable
          else .err .enoent
      else do
        fs.renameCheckLoops p fuel q
        let fs' ← fs.replace p new noreplace
        if usable : fs'.Usable q then fs'.moveEntry p (fs.name n) q (fs.nameOf new) usable
          else .err .enoent
    | _, _ => .err .ebusy

end Fs

end BadgerOS.Namespace
