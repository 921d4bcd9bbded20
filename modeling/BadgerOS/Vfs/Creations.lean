import BadgerOS.Vfs.Names

/-!
# Making and removing names

`link`, `make_file`, `unlink` and `open` with `CREATE | EXCLUSIVE`. Calls that remove
nothing leave what a path designates in place, so that an exclusive open that
creates a file is the only one.
-/

namespace BadgerOS.Namespace

open BadgerOS.Path (Name Kind Entry Resolves Designates Reached Visit)

open Outcome

variable {fs fs' : Fs} {d n m : Nat} {c : Name} {e : Entry}

variable {file oldFile newFile : Nat} {path oldPath newPath : Name} {followLinks : Bool}
  {refuses : Nat → Option Errno} {o : OFlags}

namespace Fs

/-- The directory and the name of an entry; the root has none. -/
def slot (fs : Fs) : Entry → Option (Nat × Name)
  | .node n => (fs.parent n).map (·, fs.name n)
  | .negative d c => some (d, c)

/-- Name `c` of directory `d` has come to designate inode `i`, and no other name has
changed. -/
def Designated (fs fs' : Fs) (i : Nat) (place : Option (Nat × Name)) : Prop :=
  ∃ d c, place = some (d, c) ∧ fs'.find d c = some i ∧ ∀ {x y}, ¬(x = d ∧ y = c) →
    fs'.find x y = fs.find x y

/-- The name was absent. -/
def Added (fs fs' : Fs) (i d : Nat) (c : Name) : Prop :=
  fs.find d c = none ∧ Designated fs fs' i (some (d, c))

/-- The name was there, and it is the only one that is gone. -/
def Removed (fs fs' : Fs) (d : Nat) (c : Name) : Prop :=
  fs.find d c ≠ none ∧ fs'.find d c = none ∧ ∀ {x y}, ¬(x = d ∧ y = c) →
    fs'.find x y = fs.find x y

theorem find_eq_none : fs.find d c = none ↔ fs.child d c = none := Option.map_eq_none_iff

variable {kind : Kind} {i fuel : Nat} {followLast : Bool}

theorem added_add {usable absent sameKind} :
    Added fs (fs.add d c kind i usable absent sameKind) i d c := by
  constructor
  · exact find_eq_none.mpr absent
  · refine ⟨d, c, rfl, ?_, ?_⟩
    · rw [find_add, if_pos ⟨rfl, rfl⟩]
    · intro x y other
      rw [find_add, if_neg other]

theorem makeEntry_eq_ok {usable} (h : fs.makeEntry d c kind usable = .ok fs') :
    ∃ absent sameKind, fs' = fs.add d c kind fs.nextIno usable absent sameKind := by
  unfold makeEntry at h
  split at h
  · cases h
    exact ⟨_, _, rfl⟩
  · cases h

theorem linkEntry_eq_ok {usable lt} (h : fs.linkEntry d c n usable lt = .ok fs') :
    ∃ absent sameKind, fs' = fs.add d c (fs.kind n) (fs.ino n) usable absent sameKind := by
  unfold linkEntry at h
  split at h
  · cases h
    exact ⟨_, _, rfl⟩
  · cases h

theorem makeFile_eq_ok (h : fs.makeFile fuel file path kind = .ok fs') :
    ∃ d c usable absent sameKind, fs.kind file = .directory ∧ fs.walk fuel file path false = .ok
      (.negative d c) ∧ fs' = fs.add d c kind fs.nextIno usable absent sameKind := by
  obtain ⟨start, hstart, h₁⟩ := bind_eq_ok h
  obtain ⟨x, walked, h₂⟩ := bind_eq_ok h₁
  obtain ⟨rfl, dir⟩ := toCache_eq_ok hstart
  split at h₂
  · cases h₂
  · cases h₂
  · rename_i parent
    cases parent
    split at h₂
    · split at h₂
      · cases h₂
      · obtain ⟨absent, sameKind, rfl⟩ := makeEntry_eq_ok h₂
        exact ⟨_, _, _, absent, sameKind, dir, walked, rfl⟩
    · cases h₂

theorem makeFile_adds (attached : fs.Attached file)
    (h : fs.makeFile fuel file path kind = .ok fs') :
    ∃ visits d c, Resolves fs.toTree false file path visits (.negative d c) ∧
      Added fs fs' fs.nextIno d c := by
  obtain ⟨d, c, _, _, _, dir, walked, rfl⟩ := makeFile_eq_ok h
  obtain ⟨visits, e, resolves, -, reached⟩ := walk_eq_ok dir attached walked
  cases reached
  exact ⟨visits, d, c, resolves, added_add⟩

theorem unlink_removes {isRmdir : Bool} (attached : fs.Attached file)
    (h : fs.unlink fuel file path isRmdir = .ok fs') :
    ∃ visits n p, Resolves fs.toTree false file path visits (.node n) ∧ fs.parent n = some p ∧
      Removed fs fs' p (fs.name n) := by
  obtain ⟨start, hstart, h₁⟩ := bind_eq_ok h
  obtain ⟨x, walked, h₂⟩ := bind_eq_ok h₁
  obtain ⟨rfl, dir⟩ := toCache_eq_ok hstart
  obtain ⟨visits, e, resolves, present, reached⟩ := walk_eq_ok dir attached walked
  split at h₂
  · cases h₂
  · rename_i p parent
    split at h₂
    · cases h₂
    split at h₂
    · cases h₂
    obtain ⟨m, bare, found, rfl⟩ := unlinkEntry_eq_ok h₂
    cases reached with
    | keep child =>
      -- the directory of the link is not empty
      have dirAttached : fs.Attached _ := fs.child_attached child
      rw [bare (dirAttached.child parent)] at child
      cases child
    | entry =>
      cases x with
      | negative d c =>
        cases parent
        cases found.symm.trans present.2
      | node n =>
        refine ⟨visits, n, p, resolves, parent, ?_, ?_, ?_⟩
        · rw [Ne, find_eq_none, Attached.child present parent]
          nofun
        · rw [find_remove, nameOf_node, if_pos ⟨rfl, rfl⟩]
        · intro x y other
          rw [find_remove, nameOf_node, if_neg other]

variable {bytes : List Path.Mark} {visits : List Visit}

/-- Following the last link makes a difference only for a last link. -/
theorem designates_nofollow (h : Designates fs.toTree true d bytes visits e) :
    ∃ visits' e', Designates fs.toTree false d bytes visits' e' ∧
      (e' = e ∨ ∃ m, e' = .node m) := by
  induction h with
  | done d => exact ⟨_, _, .done d, .inl rfl⟩
  | slash _ ih =>
    obtain ⟨visits', e', h, same⟩ := ih
    exact ⟨visits', e', h.slash, same⟩
  | stay split _ ih =>
    obtain ⟨visits', e', h, same⟩ := ih
    exact ⟨_, e', .stay split h, same⟩
  | up split _ ih =>
    obtain ⟨visits', e', h, same⟩ := ih
    exact ⟨_, e', .up split h, same⟩
  | enter split ordinary child kind _ ih =>
    obtain ⟨visits', e', h, same⟩ := ih
    exact ⟨_, e', .enter split ordinary child kind h, same⟩
  | @follow d m k name target bytes rest visits e split ordinary child kind _ nonempty _ ih =>
    by_cases last : rest = []
    · subst last
      exact ⟨_, _, .keep split ordinary child kind rfl, .inr ⟨m, rfl⟩⟩
    · obtain ⟨visits', e', h, same⟩ := ih
      exact ⟨_, e', .follow split ordinary child kind (.inl last) nonempty h, same⟩
  | keep split ordinary child kind last => cases last
  | file split ordinary child kind => exact ⟨_, _, .file split ordinary child kind, .inl rfl⟩
  | absent split ordinary child => exact ⟨_, _, .absent split ordinary child, .inl rfl⟩

/-- What the path designates without following a last link; the walk returns it if it
is absent. -/
theorem walk_absent {x : Entry} (dir : fs.kind n = .directory) (attached : fs.Attached n)
    (h : fs.walk fuel n path followLast = .ok x) :
    ∃ visits e, Resolves fs.toTree false n path visits e ∧ fs.Present e ∧
      ∀ {d c}, e = .negative d c → x = e := by
  obtain ⟨visits, e, resolves, -, reached⟩ := walk_eq_ok dir attached h
  have same {d : Nat} {c : Name} (he : e = .negative d c) : x = e := by
    cases reached with
    | entry => rfl
    | keep => cases he
  cases followLast with
  | false => exact ⟨visits, e, resolves, present_of_resolves resolves attached, same⟩
  | true =>
    obtain ⟨visits', e', designates, like⟩ := designates_nofollow resolves.designates
    have resolves : Resolves fs.toTree false n path visits' e' :=
      ⟨resolves.nonempty, designates⟩
    refine ⟨visits', e', resolves, present_of_resolves resolves attached, ?_⟩
    rintro d c rfl
    rcases like with rfl | ⟨m, ⟨⟩⟩
    exact same rfl

/-- Only at the absent name itself. -/
theorem eq_negative_of_designated {b : Name} {p : Nat} {usable absent sameKind}
    (present : fs.Present e)
    (h : Designated fs (fs.add p b kind i usable absent sameKind) i (fs.slot e)) :
    e = .negative p b := by
  obtain ⟨d, c, place, -, others⟩ := h
  have here : p = d ∧ b = c := by
    by_contra other
    have same := others other
    rw [find_add, if_pos ⟨rfl, rfl⟩, find_eq_none.mpr absent] at same
    cases same
  obtain ⟨rfl, rfl⟩ := here
  cases e with
  | negative d c =>
    cases place
    rfl
  | node m =>
    obtain ⟨p', parent, here⟩ := Option.map_eq_some_iff.mp place
    cases here
    cases absent.symm.trans (Attached.child present parent)

theorem link_eq_ok (h : fs.link fuel oldFile oldPath newFile newPath followLinks = .ok fs') :
    fs.kind oldFile = .directory ∧ fs.kind newFile = .directory ∧
      ∃ n x p usable absent sameKind,
      fs.walk fuel oldFile oldPath followLinks = .ok (.node n) ∧ fs.kind n ≠ .directory ∧
      fs.walk fuel newFile newPath followLinks = .ok x ∧ fs.parent n = some p ∧
      fs' = fs.add p (fs.nameOf x) (fs.kind n) (fs.ino n) usable absent sameKind := by
  obtain ⟨oldAt, hold, h₁⟩ := bind_eq_ok h
  obtain ⟨newAt, hnew, h₂⟩ := bind_eq_ok h₁
  obtain ⟨old, oldWalk, h₃⟩ := bind_eq_ok h₂
  obtain ⟨x, newWalk, h₄⟩ := bind_eq_ok h₃
  obtain ⟨rfl, oldDir⟩ := toCache_eq_ok hold
  obtain ⟨rfl, newDir⟩ := toCache_eq_ok hnew
  split at h₄
  · cases h₄
  rename_i notDir
  split at h₄
  · cases h₄
  rename_i p parent
  split at h₄
  · cases h₄
  split at h₄
  · cases old with
    | negative => cases h₄
    | node n =>
      dsimp only at h₄
      split at h₄
      · obtain ⟨absent, sameKind, rfl⟩ := linkEntry_eq_ok h₄
        have notDir : fs.kind n ≠ .directory := fun dir => notDir (congrArg some dir)
        exact ⟨oldDir, newDir, n, x, p, _, absent, sameKind, oldWalk, notDir, newWalk,
          parent, rfl⟩
      · cases h₄
  · cases h₄

/-- `link` makes the new name exactly if it is an absent one in the directory of the
old name. -/
theorem link_designates (oldAttached : fs.Attached oldFile) (newAttached : fs.Attached newFile)
    (h : fs.link fuel oldFile oldPath newFile newPath followLinks = .ok fs') :
    ∃ n new oldVisits newVisits, Resolves fs.toTree followLinks oldFile oldPath oldVisits
      (.node n) ∧ Resolves fs.toTree false newFile newPath newVisits new ∧
      (Designated fs fs' (fs.ino n) (fs.slot new) ↔ ∃ p c, fs.parent n = some p ∧
        new = .negative p c) := by
  obtain ⟨oldDir, newDir, n, x, p, _, absent, _, oldWalk, notDir, newWalk, parent, rfl⟩ :=
    link_eq_ok h
  obtain ⟨oldVisits, _, oldResolves, -, oldReached⟩ := walk_eq_ok oldDir oldAttached oldWalk
  obtain ⟨newVisits, new, newResolves, newPresent, same⟩ :=
    walk_absent newDir newAttached newWalk
  cases oldReached with
  | keep child => exact absurd (fs.child_dir child) notDir
  | entry =>
    refine ⟨n, new, oldVisits, newVisits, oldResolves, newResolves, ?_⟩
    constructor
    · intro designated
      exact ⟨p, _, parent, eq_negative_of_designated newPresent designated⟩
    · rintro ⟨p', c, parent', rfl⟩
      cases parent.symm.trans parent'
      cases same rfl
      exact added_add.2

theorem openFile_eq_ok (h : fs.openFile refuses fuel file path o = .ok (fs', i)) :
    fs.kind file = .directory ∧ ((∃ d c usable absent sameKind,
        fs.walk fuel file path (!o.nofollow) = .ok (.negative d c) ∧ i = fs.nextIno ∧
        fs' = fs.add d c .file fs.nextIno usable absent sameKind) ∨
      ∃ n, fs.walk fuel file path (!o.nofollow) = .ok (.node n) ∧
        (o.exclusive = true → fs.kind n ≠ .directory) ∧ fs' = fs) := by
  unfold openFile at h
  split at h
  · cases h
  obtain ⟨start, hstart, h₁⟩ := bind_eq_ok h
  obtain ⟨x, walked, h₂⟩ := bind_eq_ok h₁
  obtain ⟨rfl, dir⟩ := toCache_eq_ok hstart
  refine ⟨dir, ?_⟩
  cases x with
  | negative d c =>
    left
    dsimp only at h₂
    split at h₂
    · cases h₂
    split at h₂
    · cases h₂
    · obtain ⟨fs₁, created, h₃⟩ := bind_eq_ok h₂
      cases h₃
      unfold oCreatHelper at created
      split at created
      · obtain ⟨absent, sameKind, rfl⟩ := makeEntry_eq_ok created
        exact ⟨d, c, _, absent, sameKind, walked, rfl, rfl⟩
      · cases created
  | node n =>
    right
    have same : fs' = fs ∧ (o.exclusive = true → fs.kind n ≠ .directory) := by
      dsimp only at h₂
      split at h₂
      · split at h₂
        · cases h₂
        · rename_i notExclusive
          split at h₂
          · cases h₂
          · split at h₂
            · cases h₂
            · cases h₂
              exact ⟨rfl, fun exclusive => absurd exclusive notExclusive⟩
      · rename_i notDir
        split at h₂
        · cases h₂
        · split at h₂
          · cases h₂
          · cases h₂
            exact ⟨rfl, fun _ => notDir⟩
    exact ⟨n, walked, same.2, same.1⟩

/-- What is opened exclusively was absent and is created, or it is a file that was
there. -/
theorem openFile_exclusive (attached : fs.Attached file) (exclusive : o.exclusive = true)
    (h : fs.openFile refuses fuel file path o = .ok (fs', i)) :
    (∃ visits d c usable absent sameKind, Resolves fs.toTree (!o.nofollow) file path visits
    (.negative d c) ∧
      i = fs.nextIno ∧ fs' = fs.add d c .file fs.nextIno usable absent sameKind) ∨
    ∃ visits n, Resolves fs.toTree (!o.nofollow) file path visits (.node n) ∧
      fs.kind n ≠ .directory ∧ fs' = fs := by
  obtain ⟨dir, ⟨d, c, usable, absent, sameKind, walked, created⟩ | ⟨n, walked, notDir,
    same⟩⟩ := openFile_eq_ok h
  · obtain ⟨visits, e, resolves, -, reached⟩ := walk_eq_ok dir attached walked
    cases reached
    exact .inl ⟨visits, d, c, usable, absent, sameKind, resolves, created⟩
  · obtain ⟨visits, e, resolves, -, reached⟩ := walk_eq_ok dir attached walked
    cases reached with
    | entry => exact .inr ⟨visits, n, resolves, notDir exclusive, same⟩
    | keep child => exact absurd (fs.child_dir child) (notDir exclusive)

/-! ### Calls that remove nothing -/

/-- The entries are still there. -/
structure Extends (fs fs' : Fs) : Prop where
  root : fs'.root = fs.root
  kind {n : Nat} : n < fs.next → fs'.kind n = fs.kind n
  parent {n : Nat} : n < fs.next → fs'.parent n = fs.parent n
  name {n : Nat} : n < fs.next → fs'.name n = fs.name n
  child {d n : Nat} {c : Name} : fs.child d c = some n → fs'.child d c = some n

theorem Extends.refl (fs : Fs) : Extends fs fs :=
  ⟨rfl, fun _ => rfl, fun _ => rfl, fun _ => rfl, id⟩

theorem extends_add {usable absent sameKind} :
    Extends fs (fs.add d c kind i usable absent sameKind) where
  root := rfl
  kind lt := Function.update_of_ne lt.ne ..
  parent lt := Function.update_of_ne lt.ne ..
  name lt := Function.update_of_ne lt.ne ..
  child found := by
    refine (fs.setChild_other _ ?_).trans found
    rintro ⟨rfl, rfl⟩
    cases absent.symm.trans found

theorem Extends.attached (h : Extends fs fs') (attached : fs.Attached n) : fs'.Attached n := by
  have lt := attached.lt
  rcases attached with root | ⟨p, parent, child⟩
  · exact .inl (root.trans h.root.symm)
  · refine .inr ⟨p, (h.parent lt).trans parent, ?_⟩
    rw [h.name lt]
    exact h.child child

/-- What a path designates is still there, and an absent name that gets a file designates it. -/
theorem Extends.designates (h : Extends fs fs') (attached : fs.Attached d)
    (old : Designates fs.toTree followLast d bytes visits e)
    (now : e = .node m ∨ ∃ q c, e = .negative q c ∧ fs'.child q c = some m ∧ fs'.kind
    m = .file) : ∃ visits', Designates fs'.toTree followLast d bytes visits' (.node m) := by
  induction old with
  | done d =>
    obtain ⟨⟨⟩⟩ | ⟨_, _, ⟨⟩, -⟩ := now
    exact ⟨_, .done _⟩
  | slash _ ih =>
    obtain ⟨visits', rest⟩ := ih attached now
    exact ⟨_, rest.slash⟩
  | stay split _ ih =>
    obtain ⟨visits', rest⟩ := ih attached now
    exact ⟨_, .stay split rest⟩
  | up split _ ih =>
    obtain ⟨visits', rest⟩ := ih attached.up now
    rw [← h.parent attached.lt] at rest
    exact ⟨_, .up split rest⟩
  | enter split ordinary child kind _ ih =>
    have attached := attached_of_child child
    obtain ⟨visits', rest⟩ := ih attached now
    exact ⟨_, .enter split ordinary (h.child child) ((h.kind attached.lt).trans kind) rest⟩
  | follow split ordinary child kind more nonempty _ ih =>
    obtain ⟨visits', rest⟩ := ih attached.start now
    rw [← h.root] at rest
    exact ⟨_, .follow split ordinary (h.child child) ((h.kind (fs.child_lt child)).trans kind)
      more nonempty rest⟩
  | keep split ordinary child kind last =>
    obtain ⟨⟨⟩⟩ | ⟨_, _, ⟨⟩, -⟩ := now
    exact ⟨_, .keep split ordinary (h.child child)
      ((h.kind (fs.child_lt child)).trans kind) last⟩
  | file split ordinary child kind =>
    obtain ⟨⟨⟩⟩ | ⟨_, _, ⟨⟩, -⟩ := now
    exact ⟨_, .file split ordinary (h.child child) ((h.kind (fs.child_lt child)).trans kind)⟩
  | absent split ordinary =>
    obtain ⟨⟨⟩⟩ | ⟨_, _, ⟨⟩, new, isFile⟩ := now
    exact ⟨_, .file split ordinary new isFile⟩

end Fs

/-- A call that removes nothing. -/
inductive Creation where
  | makeFile (fuel file : Nat) (path : Name) (kind : Kind)
  | link (fuel oldFile : Nat) (oldPath : Name) (newFile : Nat) (newPath : Name) (followLinks : Bool)
  | openFile (fuel file : Nat) (path : Name) (o : Fs.OFlags)

namespace Creation

variable (refuses : Nat → Option Errno)

/-- The tree after a call. -/
def after (fs : Fs) : Creation → Fs
  | .makeFile fuel file path kind => match fs.makeFile fuel file path kind with
    | .ok fs' => fs'
    | _ => fs
  | .link fuel oldFile oldPath newFile newPath followLinks =>
    match fs.link fuel oldFile oldPath newFile newPath followLinks with
    | .ok fs' => fs'
    | _ => fs
  | .openFile fuel file path o => match fs.openFile refuses fuel file path o with
    | .ok (fs', _) => fs'
    | _ => fs

/-- Opening a path with `CREATE | EXCLUSIVE`. -/
def Exclusive (file : Nat) (path : Name) (nofollow : Bool) : Creation → Prop
  | .openFile _ file' path' o =>
    file' = file ∧ path' = path ∧ o.create = true ∧ o.exclusive = true ∧
      o.nofollow = nofollow
  | _ => False

instance (file : Nat) (path : Name) (nofollow : Bool) (call : Creation) :
    Decidable (call.Exclusive file path nofollow) :=
  match call with
  | .openFile _ _ _ _ => inferInstanceAs (Decidable (_ ∧ _))
  | .makeFile _ _ _ _ => isFalse id
  | .link _ _ _ _ _ _ => isFalse id

def succeeds (fs : Fs) : Creation → Bool
  | .makeFile fuel file path kind => match fs.makeFile fuel file path kind with
    | .ok _ => true
    | _ => false
  | .link fuel oldFile oldPath newFile newPath followLinks =>
    match fs.link fuel oldFile oldPath newFile newPath followLinks with
    | .ok _ => true
    | _ => false
  | .openFile fuel file path o => match fs.openFile refuses fuel file path o with
    | .ok _ => true
    | _ => false

/-- How many of the calls open the path exclusively and succeed. -/
def winners (file : Nat) (path : Name) (nofollow : Bool) : List Creation → Fs → Nat
  | [], _ => 0
  | call :: rest, fs =>
    (if call.Exclusive file path nofollow ∧ call.succeeds refuses fs then 1 else 0) +
      winners file path nofollow rest (call.after refuses fs)

/-- The path does not lead to an existing file where it is opened exclusively. -/
def AllFresh (file : Nat) (path : Name) (nofollow : Bool) : List Creation → Fs → Prop
  | [], _ => True
  | call :: rest, fs =>
    (call.Exclusive file path nofollow → ∀ {visits n}, Resolves fs.toTree (!nofollow) file path
    visits (.node n) →
      fs.kind n = .directory) ∧ AllFresh file path nofollow rest (call.after refuses fs)

theorem extends_after (fs : Fs) (call : Creation) : fs.Extends (call.after refuses fs) := by
  cases call with
  | makeFile fuel file path kind =>
    unfold after
    dsimp only
    split
    · rename_i h
      obtain ⟨_, _, _, _, _, -, -, rfl⟩ := Fs.makeFile_eq_ok h
      exact Fs.extends_add
    · exact .refl fs
  | link fuel oldFile oldPath newFile newPath followLinks =>
    unfold after
    dsimp only
    split
    · rename_i h
      obtain ⟨-, -, _, _, _, _, _, _, -, -, -, -, rfl⟩ := Fs.link_eq_ok h
      exact Fs.extends_add
    · exact .refl fs
  | openFile fuel file path o =>
    unfold after
    dsimp only
    split
    · rename_i h
      obtain ⟨-, ⟨_, _, _, _, _, -, -, rfl⟩ | ⟨_, -, -, rfl⟩⟩ := Fs.openFile_eq_ok h
      · exact Fs.extends_add
      · exact .refl _
    · exact .refl fs

variable {refuses} {nofollow : Bool} {calls : List Creation}

/-- There is a file at the path. -/
def Taken (file : Nat) (path : Name) (nofollow : Bool) (fs : Fs) : Prop :=
  ∃ visits n, Resolves fs.toTree (!nofollow) file path visits (.node n) ∧
    fs.kind n ≠ .directory

theorem Taken.extends (h : Taken file path nofollow fs) (attached : fs.Attached file)
    (ext : fs.Extends fs') : Taken file path nofollow fs' := by
  obtain ⟨visits, n, resolves, notDir⟩ := h
  have present := Fs.present_of_resolves resolves attached
  obtain ⟨visits', designates⟩ := ext.designates attached.start resolves.designates (.inl rfl)
  rw [← ext.root] at designates
  refine ⟨visits', n, ⟨resolves.nonempty, designates⟩, ?_⟩
  rw [ext.kind present.lt]
  exact notDir

/-- Once there is a file no exclusive open is fresh. -/
theorem winners_eq_zero (taken : Taken file path nofollow fs) (attached : fs.Attached file)
    (fresh : AllFresh refuses file path nofollow calls fs) :
    winners refuses file path nofollow calls fs = 0 := by
  induction calls generalizing fs with
  | nil => rfl
  | cons call rest ih =>
    have ext := extends_after refuses fs call
    have notExclusive : ¬call.Exclusive file path nofollow := by
      intro exclusive
      obtain ⟨visits, n, resolves, notDir⟩ := taken
      exact notDir (fresh.1 exclusive resolves)
    rw [winners, if_neg (fun h => notExclusive h.1), Nat.zero_add]
    exact ih (taken.extends attached ext) (ext.attached attached) fresh.2

theorem taken_after {call : Creation} (attached : fs.Attached file)
    (exclusive : call.Exclusive file path nofollow) (succeeds : call.succeeds refuses fs = true)
    (fresh : ∀ {visits n}, Resolves fs.toTree (!nofollow) file path visits (.node n) →
    fs.kind n = .directory) : Taken file path nofollow (call.after refuses fs) := by
  cases call with
  | makeFile | link => exact absurd exclusive id
  | openFile fuel file' path' o =>
    obtain ⟨rfl, rfl, -, excl, rfl⟩ := exclusive
    unfold Creation.succeeds at succeeds
    unfold after
    dsimp only at succeeds ⊢
    split at succeeds
    · rename_i result opened
      obtain ⟨fs', i⟩ := result
      simp only [opened]
      rcases Fs.openFile_exclusive attached excl opened with
        ⟨visits, d, c, usable, absent, sameKind, resolves, -, rfl⟩ | ⟨visits, n, resolves,
          notDir, -⟩
      · have new : (fs.add d c .file fs.nextIno usable absent sameKind).child d c = some fs.next :=
          fs.setChild_same ..
        have isFile : (fs.add d c .file fs.nextIno usable absent sameKind).kind fs.next = .file :=
          Function.update_self ..
        obtain ⟨visits', designates⟩ := Fs.extends_add.designates attached.start
          resolves.designates (.inr ⟨d, c, rfl, new, isFile⟩)
        refine ⟨visits', fs.next, ⟨resolves.nonempty, designates⟩, ?_⟩
        rw [isFile]
        nofun
      · exact absurd (fresh resolves) notDir
    · cases succeeds

theorem winners_le_one (attached : fs.Attached file)
    (fresh : AllFresh refuses file path nofollow calls fs) :
    winners refuses file path nofollow calls fs ≤ 1 := by
  induction calls generalizing fs with
  | nil => exact Nat.zero_le 1
  | cons call rest ih =>
    have ext := extends_after refuses fs call
    rw [winners]
    split
    · rename_i won
      have taken := taken_after attached won.1 won.2 (fresh.1 won.1)
      rw [winners_eq_zero taken (ext.attached attached) fresh.2]
    · rw [Nat.zero_add]
      exact ih (ext.attached attached) fresh.2

end Creation

/-- `link` that succeeds makes exactly the new name if that is an absent name in the
directory of the old one, and not otherwise; `make_file` adds exactly its name and
`unlink` removes exactly its name. An exclusive open that succeeds has created the
name unless the path leads to a file that is there, and at most one of them succeeds
if none leads to such a file. -/
theorem names_exact (refuses : Nat → Option Errno) (fs : Fs) :
    (∀ {fuel oldFile newFile oldPath newPath followLinks fs'}, fs.Attached oldFile →
      fs.Attached newFile → fs.link fuel oldFile oldPath newFile newPath followLinks = .ok fs' →
      ∃ n new oldVisits newVisits, Resolves fs.toTree followLinks oldFile oldPath oldVisits
        (.node n) ∧ Resolves fs.toTree false newFile newPath newVisits new ∧
        (Fs.Designated fs fs' (fs.ino n) (fs.slot new) ↔ ∃ p c, fs.parent n = some p ∧
          new = .negative p c)) ∧
    (∀ {fuel file path kind fs'}, fs.Attached file →
      fs.makeFile fuel file path kind = .ok fs' →
      ∃ visits d c, Resolves fs.toTree false file path visits (.negative d c) ∧
        Fs.Added fs fs' fs.nextIno d c) ∧
    (∀ {fuel file path isRmdir fs'}, fs.Attached file →
      fs.unlink fuel file path isRmdir = .ok fs' →
      ∃ visits n p, Resolves fs.toTree false file path visits (.node n) ∧
        fs.parent n = some p ∧ Fs.Removed fs fs' p (fs.name n)) ∧
    (∀ {fuel file path o fs' i}, fs.Attached file → o.exclusive = true →
      fs.openFile refuses fuel file path o = .ok (fs', i) →
      ∃ visits e, Resolves fs.toTree (!o.nofollow) file path visits e ∧
        ((∃ d c, e = .negative d c ∧ Fs.Added fs fs' i d c) ↔ ∀ n, e = .node n →
          fs.kind n = .directory)) ∧
    (∀ {file path nofollow calls}, fs.Attached file → Creation.AllFresh refuses file path
      nofollow calls fs → Creation.winners refuses file path nofollow calls fs ≤ 1) := by
  refine ⟨Fs.link_designates, Fs.makeFile_adds, Fs.unlink_removes, ?_, Creation.winners_le_one⟩
  intro fuel file path o fs' i attached exclusive h
  rcases Fs.openFile_exclusive attached exclusive h with
    ⟨visits, d, c, _, _, _, resolves, rfl, rfl⟩ | ⟨visits, n, resolves, notDir, rfl⟩
  · refine ⟨visits, _, resolves, ?_⟩
    apply iff_of_true
    · exact ⟨d, c, rfl, Fs.added_add⟩
    · nofun
  · refine ⟨visits, _, resolves, ?_⟩
    apply iff_of_false
    · rintro ⟨d, c, ⟨⟩, -⟩
    · intro dir
      exact notDir (dir n rfl)

def createExclusive : Fs.OFlags :=
  { create := true, exclusive := true, dirOnly := false, fileOnly := false, readOnly := true,
    writeOnly := true, append := false, truncate := false, nofollow := false }

/-- `link("a/f", "a/g")`, and one exclusive open of `a/h`. -/
theorem names_exact_same_dir : ∃ fs fs' fs'' : Fs,
    fs.link 20 fs.root [97, 47, 102] fs.root [97, 47, 103] false = .ok fs' ∧
    fs.openFile (fun _ => none) 20 fs.root [97, 47, 104] createExclusive = .ok (fs'', 4) ∧
    fs'.find 1 [103] = some 3 ∧
    (∃ n new oldVisits newVisits, Resolves fs.toTree false fs.root [97, 47, 102] oldVisits
    (.node n) ∧
      Resolves fs.toTree false fs.root [97, 47, 103] newVisits new ∧
      (Fs.Designated fs fs' (fs.ino n) (fs.slot new) ↔ ∃ p c, fs.parent n = some p ∧
        new = .negative p c)) ∧
    ∃ visits e, Resolves fs.toTree true fs.root [97, 47, 104] visits e ∧
      ((∃ d c, e = .negative d c ∧ Fs.Added fs fs'' 4 d c) ↔ ∀ n, e = .node n →
        fs.kind n = .directory) := by
  have facts : (do
      let fs ← sampleFs .file
      let fs' ← fs.link 20 fs.root [97, 47, 102] fs.root [97, 47, 103] false
      let opened ← fs.openFile (fun _ => none) 20 fs.root [97, 47, 104] createExclusive
      .ok (fs'.find 1 [103], opened.2)) = ok (some 3, 4) := by decide +kernel
  obtain ⟨fs, -, facts⟩ := bind_eq_ok facts
  obtain ⟨fs', linked, facts⟩ := bind_eq_ok facts
  obtain ⟨⟨fs'', i⟩, opened, facts⟩ := bind_eq_ok facts
  obtain ⟨found, hi⟩ := Prod.mk.inj (ok.inj facts)
  cases hi
  obtain ⟨links, -, -, opens, -⟩ := names_exact (fun _ => none) fs
  exact ⟨fs, fs', fs'', linked, opened, found, links (.inl rfl) (.inl rfl) linked,
    opens (.inl rfl) rfl opened⟩

/-- `link("a/f", "b/g")` makes `a/g`, and both of two exclusive opens of `a/f` succeed
although it is there. -/
theorem not_names_exact :
    (∃ fs fs' : Fs, fs.link 20 fs.root [97, 47, 102] fs.root [98, 47, 103] false = .ok fs' ∧
      fs.child fs.root [98] = some 2 ∧ fs.find 1 [103] = none ∧ fs.find 1 [102] = some 3 ∧
      fs'.find 2 [103] = none ∧ fs'.find 1 [103] = some 3) ∧
    (∃ fs fs' fs'' : Fs, fs.find 1 [102] = some 3 ∧
      fs.openFile (fun _ => none) 20 fs.root [97, 47, 102] createExclusive = .ok (fs', 3) ∧
      fs'.openFile (fun _ => none) 20 fs.root [97, 47, 102] createExclusive = .ok (fs'', 3)) := by
  constructor
  · have facts : (do
        let fs ← sampleFs .file
        let fs' ← fs.link 20 fs.root [97, 47, 102] fs.root [98, 47, 103] false
        .ok (decide (fs.child fs.root [98] = some 2 ∧ fs.find 1 [103] = none ∧
          fs.find 1 [102] = some 3 ∧
          fs'.find 2 [103] = none ∧ fs'.find 1 [103] = some 3))) = ok true := by decide +kernel
    obtain ⟨fs, -, facts⟩ := bind_eq_ok facts
    obtain ⟨fs', linked, facts⟩ := bind_eq_ok facts
    exact ⟨fs, fs', linked, of_decide_eq_true (ok.inj facts)⟩
  · have facts : (do
        let fs ← sampleFs .file
        let first ← fs.openFile (fun _ => none) 20 fs.root [97, 47, 102] createExclusive
        let second ← first.1.openFile (fun _ => none) 20 fs.root [97, 47, 102] createExclusive
        .ok (fs.find 1 [102], first.2, second.2)) = ok (some 3, 3, 3) := by decide +kernel
    obtain ⟨fs, -, facts⟩ := bind_eq_ok facts
    obtain ⟨⟨fs', i⟩, first, facts⟩ := bind_eq_ok facts
    obtain ⟨⟨fs'', j⟩, second, facts⟩ := bind_eq_ok facts
    obtain ⟨found, rest⟩ := Prod.mk.inj (ok.inj facts)
    obtain ⟨hi, hj⟩ := Prod.mk.inj rest
    cases hi
    cases hj
    exact ⟨fs, fs', fs'', found, first, second⟩

end BadgerOS.Namespace
