import BadgerOS.Vfs.Namespace
import BadgerOS.Vfs.Walked

/-!
# What the calls do to names

Each call is compared with what its paths designate: the entry of a path is given
by path resolution, and not by the walk.
-/

namespace BadgerOS.Namespace

open BadgerOS.Path (Name Kind Entry Resolves Designates Reached Visit)

open Outcome

variable {fs fs' : Fs} {d n m : Nat} {c : Name} {e : Entry}

variable {visits : List Visit} {path c' a : Name} {x : Entry} {d' : Nat}

namespace Fs

theorem attached_of_child (h : fs.child d c = some n) : fs.Attached n := by
  refine .inr ⟨d, fs.child_parent h, ?_⟩
  rw [fs.child_name h]
  exact h

variable {p fuel q : Nat} {followLast noreplace : Bool}

theorem Attached.child (h : fs.Attached n) (parent : fs.parent n = some p) :
    fs.child p (fs.name n) = some n := by
  rcases h with rfl | ⟨p', parent', child⟩
  · rw [fs.root_parent] at parent
    cases parent
  · cases parent.symm.trans parent'
    exact child

theorem Attached.parent (h : fs.Attached n) (parent : fs.parent n = some p) : fs.Attached p :=
  fs.child_attached (h.child parent)

/-- An entry of the tree, or an absent name in a directory of the tree. -/
def Present (fs : Fs) : Entry → Prop
  | .node n => fs.Attached n
  | .negative d c => fs.Attached d ∧ fs.child d c = none

theorem Attached.up (attached : fs.Attached d) : fs.Attached ((fs.parent d).getD d) := by
  cases hp : fs.parent d with
  | none => exact attached
  | some p => exact attached.parent hp

theorem Attached.start {path : Name} (attached : fs.Attached d) :
    fs.Attached (if path.head? = some Path.slash then fs.root else d) := by
  split
  · exact .inl rfl
  · exact attached

theorem present_of_designates {bytes : List Path.Mark}
    (h : Designates fs.toTree followLast d bytes visits e) (attached : fs.Attached d) :
    fs.Present e := by
  induction h with
  | done => exact attached
  | slash _ ih | stay _ _ ih => exact ih attached
  | up _ _ ih => exact ih attached.up
  | enter _ _ child _ _ ih => exact ih (attached_of_child child)
  | follow _ _ _ _ _ _ _ ih => exact ih attached.start
  | keep _ _ child | file _ _ child => exact attached_of_child child
  | absent _ _ child => exact ⟨attached, child⟩

theorem present_of_resolves (h : Resolves fs.toTree followLast d path visits e)
    (attached : fs.Attached d) : fs.Present e :=
  present_of_designates h.designates attached.start

theorem toCache_eq_ok {r : Nat} (h : fs.toCache n = .ok r) : r = n ∧ fs.kind n = .directory := by
  unfold toCache at h
  split at h
  · rename_i dir
    cases h
    exact ⟨rfl, dir⟩
  · cases h

theorem nameOf_node (n : Nat) : fs.nameOf (.node n) = fs.name n := rfl

/-- What a path designates, and what the walk along it returns. -/
theorem walk_eq_ok (dir : fs.kind n = .directory) (attached : fs.Attached n)
    (h : fs.walk fuel n path followLast = .ok x) :
    ∃ visits e, Resolves fs.toTree followLast n path visits e ∧ fs.Present e ∧
      Reached fs.toTree e x := by
  unfold walk at h
  split at h
  · rename_i walked
    cases h
    obtain ⟨visits, e, resolves, reached⟩ := Path.Walks.sound dir ⟨fuel, walked⟩
    exact ⟨visits, e, resolves, present_of_resolves resolves attached, reached⟩
  · cases h
  · cases h
  · cases h

/-- The directory of a link has an entry. -/
theorem Present.of_reached (h : fs.Present e) (reached : Reached fs.toTree e x) : fs.Present x := by
  cases reached with
  | entry => exact h
  | keep child => exact fs.child_attached child

/-! ### What the operations do -/

theorem find_remove {bare} (x : Nat) (y : Name) :
    (fs.remove d c bare).find x y = if x = d ∧ y = c then none else fs.find x y := by
  show (fs.setChild d c none x y).map fs.ino = _
  unfold setChild
  split <;> rfl

theorem find_add {kind : Kind} {ino : Nat} {usable absent sameKind} (x : Nat) (y : Name) :
    (fs.add d c kind ino usable absent sameKind).find x y = if x = d ∧
    y = c then some ino else fs.find x y := by
  show (fs.setChild d c (some fs.next) x y).map (Function.update fs.ino fs.next ino) = _
  unfold setChild
  split
  · rw [Option.map_some, Function.update_self]
  · unfold find
    cases hc : fs.child x y with
    | none => rfl
    | some m =>
      rw [Option.map_some, Function.update_of_ne (Nat.ne_of_lt (fs.child_lt hc)), Option.map_some]

theorem find_move {found usable absent} (x : Nat) (y : Name) :
    (fs.move (n := n) d c d' c' found usable absent).find x y =
      if x = d' ∧ y = c' then some (fs.ino n) else if x = d ∧
        y = c then none else fs.find x y := by
  show (fs.moveChild n d c d' c' x y).map fs.ino = _
  unfold moveChild
  split
  · rfl
  · split <;> rfl

theorem unlinkEntry_eq_ok {mode : UnlinkMode} (h : fs.unlinkEntry d c mode = .ok fs') :
    ∃ n bare, fs.child d c = some n ∧ fs' = fs.remove d c bare := by
  unfold unlinkEntry at h
  split at h
  · cases h
  · rename_i n found
    split at h
    · split at h
      · cases h
      · split at h
        · cases h
          exact ⟨n, _, found, rfl⟩
        · cases h
    · split at h
      · cases h
      · cases h
        exact ⟨n, _, found, rfl⟩

theorem moveEntry_eq_ok {usable} (h : fs.moveEntry d c d' c' usable = .ok fs') :
    ∃ n, ∃ (found : fs.child d c = some n) (absent : fs.child d' c' = none),
      fs' = fs.move d c d' c' found usable absent := by
  unfold moveEntry at h
  split at h
  · cases h
  · rename_i n found
    split at h
    · rename_i absent
      cases h
      exact ⟨n, found, absent, rfl⟩
    · cases h

/-! ### Rename -/

/-- Name `a` of directory `p` for inode `i` has become name `b` of directory `q`. -/
structure Renamed (fs fs' : Fs) (i p : Nat) (a : Name) (q : Nat) (b : Name) : Prop where
  arrives : fs'.find q b = some i
  leaves : ¬(p = q ∧ a = b) → fs'.find p a = none
  unchanged : p = q ∧ a = b → ∀ x y, fs'.find x y = fs.find x y
  /-- What was there before has lost that name and no other. -/
  loses {j : Nat} : fs.find q b = some j → j ≠ i →
    ∀ {x y}, fs'.find x y = some j ↔ fs.find x y = some j ∧ ¬(x = q ∧ y = b)
  others {x : Nat} {y : Name} : ¬(x = p ∧ y = a) → ¬(x = q ∧ y = b) →
    fs'.find x y = fs.find x y

theorem Renamed.of_find {i : Nat} {b : Name} (found : fs.find p a = some i)
    (ne : ¬(p = q ∧ a = b))
    (h : ∀ x y, fs'.find x y = if x = q ∧ y = b then some i else if x = p ∧
    y = a then none else fs.find x y) : Renamed fs fs' i p a q b := by
  constructor
  case arrives => rw [h, if_pos ⟨rfl, rfl⟩]
  case leaves =>
    intro _
    rw [h, if_neg ne, if_pos ⟨rfl, rfl⟩]
  case unchanged =>
    intro same
    exact absurd same ne
  case loses =>
    intro j _ other x y
    rw [h]
    split_ifs with new old
    · simp [new, Ne.symm other]
    · rw [old.1, old.2, found]
      simp [Ne.symm other]
    · simp [new]
  case others =>
    intro x y old new
    rw [h, if_neg new, if_neg old]

theorem replace_node (h : fs.replace p (.node m) noreplace = .ok fs') :
    ∃ k bare, fs.child p (fs.name m) = some k ∧ fs' = fs.remove p (fs.name m) bare := by
  unfold replace at h
  dsimp only at h
  split at h
  · cases h
  · exact unlinkEntry_eq_ok h

/-- Nothing is replaced in another directory, since it is looked for in the wrong one. -/
theorem not_moveEntry_replaced {fs₁ : Fs} {usable} (attached : fs.Attached m)
    (parent : fs.parent m = some q) (ne : p ≠ q) (h : fs.replace p (.node m) noreplace = .ok fs₁) :
    fs₁.moveEntry p a q (fs.name m) usable ≠ .ok fs' := by
  intro moved
  obtain ⟨_, _, -, rfl⟩ := replace_node h
  obtain ⟨_, -, absent, -⟩ := moveEntry_eq_ok moved
  have still : fs.setChild p (fs.name m) none q (fs.name m) = some m := by
    rw [setChild_other]
    · exact attached.child parent
    · rintro ⟨same, -⟩
      exact ne same.symm
  cases absent.symm.trans still

/-- A directory with an entry is not replaced. -/
theorem not_replace_of_child (attached : fs.Attached d) (parent : fs.parent d = some p)
    (child : fs.child d c = some m) : fs.replace p (.node d) noreplace ≠ .ok fs' := by
  intro h
  obtain ⟨_, bare, _, -⟩ := replace_node h
  rw [bare (attached.child parent)] at child
  cases child

/-- What happens in a `rename` that succeeds, after its walks. -/
inductive RenameSteps (fs : Fs) (n : Nat) (new : Entry) (fs' : Fs) (p q : Nat) : Prop
  | within {noreplace : Bool} {fs₁ : Fs} {usable} (same : p = q)
    (replaced : fs.replace p new noreplace = .ok fs₁)
      (renamed : fs₁.renameEntry p (fs.name n) (fs.nameOf new) usable = .ok fs')
  | across {noreplace : Bool} {fs₁ : Fs} {usable} (ne : p ≠ q)
    (replaced : fs.replace p new noreplace = .ok fs₁)
      (moved : fs₁.moveEntry p (fs.name n) q (fs.nameOf new) usable = .ok fs')

theorem rename_eq_ok {oldFile newFile : Nat} {oldPath newPath : Name}
    (h : fs.rename fuel oldFile oldPath newFile newPath noreplace = .ok fs') :
    fs.kind oldFile = .directory ∧ fs.kind newFile = .directory ∧ ∃ n new p q,
      fs.walk fuel oldFile oldPath false = .ok (.node n) ∧
        fs.walk fuel newFile newPath false = .ok new ∧
      fs.parent n = some p ∧ fs.parentOf new = some q ∧ RenameSteps fs n new fs' p q := by
  obtain ⟨oldAt, hold, h₁⟩ := bind_eq_ok h
  obtain ⟨newAt, hnew, h₂⟩ := bind_eq_ok h₁
  obtain ⟨old, oldWalk, h⟩ := bind_eq_ok h₂
  obtain ⟨rfl, oldDir⟩ := toCache_eq_ok hold
  obtain ⟨rfl, newDir⟩ := toCache_eq_ok hnew
  cases old with
  | negative => cases h
  | node n =>
    obtain ⟨new, newWalk, h⟩ := bind_eq_ok h
    refine ⟨oldDir, newDir, n, new, ?_⟩
    split at h
    · rename_i p q hp hq
      refine ⟨p, q, oldWalk, newWalk, hp, hq, ?_⟩
      split at h
      · cases h
      split at h
      · cases h
      split at h
      · rename_i same
        obtain ⟨fs₁, replaced, h⟩ := bind_eq_ok h
        split at h
        · exact .within same replaced h
        · cases h
      · rename_i ne
        obtain ⟨-, -, h⟩ := bind_eq_ok h
        obtain ⟨fs₁, replaced, h⟩ := bind_eq_ok h
        split at h
        · exact .across ne replaced h
        · cases h
    · cases h

/-- The entry that the walk returned for the old path is moved. -/
theorem RenameSteps.renamed {new : Entry} (steps : RenameSteps fs n new fs' p q)
    (attached : fs.Attached n)
    (present : fs.Present new) (hp : fs.parent n = some p) (hq : fs.parentOf new = some q) :
    Renamed fs fs' (fs.ino n) p (fs.name n) q (fs.nameOf new) := by
  have found := attached.child hp
  have foundIno : fs.find p (fs.name n) = some (fs.ino n) := by rw [find, found, Option.map_some]
  cases new with
  | negative q c =>
    obtain rfl : q = _ := Option.some.inj hq
    have ne : ¬(p = q ∧ fs.name n = c) := by
      rintro ⟨rfl, rfl⟩
      cases found.symm.trans present.2
    cases steps with
    | within same replaced renamed =>
      cases same
      cases replaced
      unfold renameEntry at renamed
      split at renamed
      · rename_i sameName
        exact absurd ⟨rfl, sameName⟩ ne
      · obtain ⟨m, found', absent, rfl⟩ := moveEntry_eq_ok renamed
        cases found.symm.trans found'
        exact .of_find foundIno ne fun x y => find_move x y
    | across _ replaced moved =>
      cases replaced
      obtain ⟨m, found', absent, rfl⟩ := moveEntry_eq_ok moved
      cases found.symm.trans found'
      exact .of_find foundIno ne fun x y => find_move x y
  | node m =>
    cases steps with
    | across ne replaced moved => exact absurd moved (not_moveEntry_replaced present hq ne replaced)
    | within same replaced renamed =>
      cases same
      obtain ⟨k, bare, -, rfl⟩ := replace_node replaced
      rw [nameOf_node] at renamed ⊢
      unfold renameEntry at renamed
      split at renamed
      · -- the entry itself was removed
        rename_i sameName
        have gone : (fs.remove p (fs.name m) bare).child p (fs.name n) = none := by
          rw [sameName]
          exact fs.setChild_same p (fs.name m) none
        rw [gone] at renamed
        cases renamed
      · rename_i other
        have ne : ¬(p = p ∧ fs.name n = fs.name m) := fun h => other h.2
        obtain ⟨n', found', absent, rfl⟩ := moveEntry_eq_ok renamed
        have still : fs.setChild p (fs.name m) none p (fs.name n) = some n := by
          rw [setChild_other _ _ ne]
          exact found
        cases still.symm.trans found'
        apply Renamed.of_find foundIno ne
        intro x y
        rw [find_move]
        by_cases new : x = p ∧ y = fs.name m
        · rw [if_pos new, if_pos new]
          rfl
        · rw [if_neg new, if_neg new, find_remove, if_neg new]

/-- A `rename` that succeeds moves what the old path designates to what the new path
designates exactly if that is not a symbolic link. -/
theorem rename_moves {oldFile newFile : Nat} {oldPath newPath : Name}
    (oldAttached : fs.Attached oldFile)
    (newAttached : fs.Attached newFile)
    (h : fs.rename fuel oldFile oldPath newFile newPath noreplace = .ok fs') :
    ∃ n new oldVisits newVisits p q, Resolves fs.toTree false oldFile oldPath oldVisits
      (.node n) ∧ Resolves fs.toTree false newFile newPath newVisits new ∧
      fs.parent n = some p ∧ fs.parentOf new = some q ∧
      (Renamed fs fs' (fs.ino n) p (fs.name n) q (fs.nameOf new) ↔
        ∀ target, fs.kind n ≠ .symlink target) := by
  obtain ⟨oldDir, newDir, n, new, p, q, oldWalk, newWalk, hp, hq, steps⟩ := rename_eq_ok h
  obtain ⟨oldVisits, old, oldResolves, oldPresent, oldReached⟩ :=
    walk_eq_ok oldDir oldAttached oldWalk
  obtain ⟨newVisits, new', newResolves, newPresent, newReached⟩ :=
    walk_eq_ok newDir newAttached newWalk
  have attached := oldPresent.of_reached oldReached
  cases newReached with
  | keep child kind =>
    -- the directory of the link would have to be replaced
    have dirAttached := fs.child_attached child
    cases steps with
    | within same replaced =>
      cases same
      exact absurd replaced (not_replace_of_child dirAttached hq child)
    | across ne replaced moved =>
      exact absurd moved (not_moveEntry_replaced dirAttached hq ne replaced)
  | entry notLink =>
    have renamed := steps.renamed attached newPresent hp hq
    cases oldReached with
    | entry plain =>
      refine ⟨n, new, oldVisits, newVisits, p, q, oldResolves, newResolves, hp, hq, ?_⟩
      have notLink : ∀ target, fs.kind n ≠ .symlink target := by
        intro target link
        exact plain target (congrArg some link)
      exact iff_of_true renamed notLink
    | @keep _ m _ target child kind =>
      refine ⟨m, new, oldVisits, newVisits, n, q, oldResolves, newResolves,
        fs.child_parent child, hq, ?_⟩
      apply iff_of_false
      · intro moved
        -- the new name designates the directory of the link
        have same := Option.some.inj (moved.arrives.symm.trans renamed.arrives)
        have sameKind := fs.ino_kind (fs.child_lt child) attached.lt same
        rw [kind, fs.child_dir child] at sameKind
        cases sameKind
      · intro plain
        exact plain target kind

end Fs

/-- A filesystem with an empty root directory. -/
def blank : Fs where
  root := 0
  kind _ := .directory
  parent _ := none
  child _ _ := none
  root_dir := rfl
  parent_dir := nofun
  name _ := [Path.slash]
  ino _ := 0
  next := 1
  nextIno := 1
  readOnly := false
  root_parent := rfl
  root_name := rfl
  root_lt := Nat.one_pos
  parent_lt := nofun
  child_parent := nofun
  child_name := nofun
  child_lt := nofun
  child_dir := nofun
  child_attached := nofun
  ino_lt _ := Nat.one_pos
  ino_kind _ _ _ := rfl

/-- The directories `a` and `b`, and `a/f` of the given kind. -/
def sampleFs (kind : Kind) : Outcome Errno Fs := do
  let fs ← blank.makeFile 20 0 [97] .directory
  let fs ← fs.makeFile 20 0 [98] .directory
  fs.makeFile 20 0 [97, 47, 102] kind

/-- `rename("a/f", "b/g")`. -/
theorem rename_moves_file : ∃ fs fs' : Fs, fs.rename 20 fs.root [97, 47, 102] fs.root
    [98, 47, 103] false = .ok fs' ∧
    fs.find 1 [102] = some 3 ∧ fs'.find 2 [103] = some 3 ∧ ∃ n new oldVisits p q,
      Resolves fs.toTree false fs.root [97, 47, 102] oldVisits (.node n) ∧
      (Fs.Renamed fs fs' (fs.ino n) p (fs.name n) q (fs.nameOf new) ↔
        ∀ target, fs.kind n ≠ .symlink target) := by
  have facts : (do
      let fs ← sampleFs .file
      let fs' ← fs.rename 20 fs.root [97, 47, 102] fs.root [98, 47, 103] false
      .ok (fs.find 1 [102], fs'.find 2 [103])) = ok (some 3, some 3) := by decide +kernel
  obtain ⟨fs, -, facts⟩ := bind_eq_ok facts
  obtain ⟨fs', renamed, facts⟩ := bind_eq_ok facts
  obtain ⟨old, new⟩ := Prod.mk.inj (ok.inj facts)
  obtain ⟨n, e, oldVisits, -, p, q, resolves, -, -, -, iff⟩ :=
    Fs.rename_moves (.inl rfl) (.inl rfl) renamed
  exact ⟨fs, fs', renamed, old, new, n, e, oldVisits, p, q, resolves, iff⟩

/-- `a/f` is a link. `rename("a/f", "g")` moves `a`, and `g` designates that directory. -/
theorem not_rename_moves : ∃ fs fs' : Fs, fs.rename 20 fs.root [97, 47, 102] fs.root
    [103] false = .ok fs' ∧
    (∃ visits n, Resolves fs.toTree false fs.root [97, 47, 102] visits (.node n) ∧
    fs.ino n = 3) ∧
    fs'.find fs.root [103] = some 1 ∧ fs'.find fs.root [97] = none ∧
      fs'.find 1 [102] = some 3 := by
  have facts : (do
      let fs ← sampleFs (.symlink [120])
      let fs' ← fs.rename 20 fs.root [97, 47, 102] fs.root [103] false
      .ok (decide ((fs.child fs.root [97] = some 1 ∧ fs.kind 1 = .directory ∧
        fs.child 1 [102] = some 3 ∧
          fs.kind 3 = .symlink [120] ∧ fs.ino 3 = 3) ∧
        fs'.find fs.root [103] = some 1 ∧ fs'.find fs.root [97] = none ∧
          fs'.find 1 [102] = some 3))) =
      ok true := by decide +kernel
  obtain ⟨fs, -, facts⟩ := bind_eq_ok facts
  obtain ⟨fs', renamed, facts⟩ := bind_eq_ok facts
  obtain ⟨⟨dir, isDir, link, isLink, ino⟩, after⟩ := of_decide_eq_true (ok.inj facts)
  have last : Designates fs.toTree false 1 (Path.mark 0 [102]) _ (.node 3) :=
    .keep (.last rfl (by decide) (by decide)) (by decide) link isLink rfl
  have first : Path.Splits (Path.mark 0 [97, 47, 102]) 0 [97]
      ((0, Path.slash) :: Path.mark 0 [102]) :=
    ⟨rfl, by decide, by decide, by simp⟩
  have designates := Designates.enter first (by decide) dir isDir last.slash
  exact ⟨fs, fs', renamed, ⟨_, 3, ⟨nofun, designates⟩, ino⟩, after⟩

end BadgerOS.Namespace
