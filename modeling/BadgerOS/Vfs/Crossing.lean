import BadgerOS.Vfs.Mounts

/-!
# Crossing mounts down and up

A mount records the directory it is mounted on and the mount that directory was
reached through. If the recorded mount is right, leaving all mounts after entering
them comes back to the same place, so `..` undoes the lookup of a name. Where nothing is
mounted, the walk is the one of `Path`.
-/

namespace BadgerOS.Mounts

open Interleaving Loop Function Option List Outcome
open BadgerOS.Path (Name Kind Entry slash dot dotDot linkMax pathMax nameMax)

variable {v : Nat → Volume} {s s' : Table} {loc next r dir d : Loc} {name : Name}

/-- A place in the filesystem of its mount. -/
def Loc.Valid (s : Table) (loc : Loc) : Prop :=
  loc.mount ∈ s.all ∧ loc.cache.vfs = loc.mount.vfs

theorem Loc.Valid.mono (h : loc.Valid s) (more : ∀ {m}, m ∈ s.all → m ∈ s'.all) :
    loc.Valid s' := ⟨more h.1, h.2⟩

variable {m : Mount}

theorem Mount.rootLoc_valid (h : m ∈ s.all) : (m.rootLoc v).Valid s := ⟨h, rfl⟩

structure Inv (v : Nat → Volume) (s : Table) : Prop where
  mounted_mem {c : Cache} {m : Mount} : s.mounted c = some m → m ∈ s.all
  /-- The filesystem of a mount point is mounted. -/
  point_mem {c : Cache} {m : Mount} : s.mounted c = some m → ∃ k ∈ s.all, k.vfs = c.vfs
  parent_valid {vfs : Nat} {c : Cache} {k : Mount} : .within vfs c k ∈ s.all →
    Loc.Valid s ⟨c, k⟩
  /-- Leaving a mount leads where leaving from its mount point leads. -/
  leaves {c : Cache} {m k : Mount} : s.mounted c = some m → k ∈ s.all → k.vfs = c.vfs →
    exitMounts v (rootCache v m.vfs) m = exitMounts v c k
  /-- Entering ends. -/
  ends (loc : Loc) : ∃ r, loop (enterStep v s) (s.all.length + 1) loc = some r
  files_valid {loc : Loc} : loc ∈ s.files → loc.Valid s

theorem start_inv : Inv v start where
  mounted_mem := nofun
  point_mem := nofun
  parent_valid := nofun
  leaves := nofun
  ends loc := ⟨loc, rfl⟩
  files_valid := nofun

theorem enterMounts_eq_ok (h : enterMounts v s loc = .ok r) :
    loop (enterStep v s) (s.all.length + 1) loc = some r := by
  unfold enterMounts at h
  split at h
  · rename_i run
    cases h
    exact run
  · cases h

theorem enterStep_eq_inl (h : enterStep v s loc = .inl next) :
    ∃ m, s.mounted loc.cache = some m ∧ next = m.rootLoc v := by
  unfold enterStep at h
  split at h
  · rename_i m mounted
    cases h
    exact ⟨m, mounted, rfl⟩
  · cases h

theorem enterStep_eq_inr (h : enterStep v s loc = .inr r) : s.mounted loc.cache = none ∧
    r = loc := by
  unfold enterStep at h
  split at h
  · cases h
  · rename_i mounted
    cases h
    exact ⟨mounted, rfl⟩

theorem enterMounts_of_not_mounted (h : s.mounted loc.cache = none) :
    enterMounts v s loc = .ok loc := by
  unfold enterMounts loop enterStep
  rw [h]

/-! ### Without mount points -/

/-- An entry of the filesystem that is the root. -/
abbrev located (vfs : Nat) (e : Entry) : Loc := ⟨⟨vfs, e⟩, .first vfs⟩

def locatedOutcome (vfs : Nat) : Path.Outcome → Outcome Errno Loc
  | .ok e => .ok (located vfs e)
  | .err e => .err e
  | .panic => .panic

def locatedWalker (vfs : Nat) (w : Path.Walker) : Walker :=
  ⟨located vfs w.loc, w.stack, w.linksPassed⟩

section Bare

variable {vfs : Nat} (bare : ∀ c, s.mounted c = none)
include bare

theorem lookup_bare (e : Entry) (component : Name) : lookup v s (located vfs e) component =
    match (v vfs).lookupImpl e component with
    | .ok next => .ok (located vfs next)
    | .error code => .err code := by
  have enters (loc : Loc) : enterMounts v s loc = .ok loc :=
    enterMounts_of_not_mounted (bare loc.cache)
  unfold lookup lookupImpl Path.Tree.lookupImpl
  split
  · exact enters _
  split
  · simp only [located, exitMounts, Cache.parent]
    cases (v vfs).parentOf e <;> exact enters _
  · rw [enters, ok_bind]
    cases e with
    | negative dir name => rfl
    | node n =>
      simp only [located]
      by_cases isDir : (v vfs).kind n = .directory
      · rw [if_pos isDir, if_pos isDir]
        cases (v vfs).child n component <;> exact enters _
      · rw [if_neg isDir, if_neg isDir]
        rfl

theorem walkStep_bare (follow : Bool) (w : Path.Walker) :
    walkStep v s (located vfs (.node (v vfs).root)) follow (locatedWalker vfs w) =
      (Path.walkStep (v vfs).toTree follow w).map (locatedWalker vfs) (locatedOutcome vfs) := by
  have arrives (next : Entry) (rest : Name) (below : List Name) :
      arrive v (located vfs (.node (v vfs).root)) follow (locatedWalker vfs w) (located vfs next)
        rest below =
        (Path.arrive (v vfs).toTree follow w next rest below).map (locatedWalker vfs)
            (locatedOutcome vfs) := by
    unfold arrive Path.arrive
    simp only [located, Cache.type, locatedWalker]
    cases (v vfs).type next with
    | none =>
      simp only [apply_ite (Sum.map (locatedWalker vfs) (locatedOutcome vfs))]
      rfl
    | some kind =>
      cases kind with
      | directory | file => rfl
      | symlink target =>
        simp only [apply_ite (Sum.map (locatedWalker vfs) (locatedOutcome vfs))]
        cases target with
        | nil => rfl
        | cons first tail =>
          by_cases absolute : first = slash
          · simp only [absolute, if_true]
            rfl
          · simp only [absolute, if_false]
            rfl
  obtain ⟨loc, stack, linksPassed⟩ := w
  unfold walkStep Path.walkStep
  simp only [locatedWalker]
  cases stack with
  | nil => rfl
  | cons top below =>
    cases top with
    | nil =>
      dsimp only
      split <;> rfl
    | cons c cs =>
      dsimp only
      split
      · simp only [located, Cache.type]
        cases (v vfs).type loc with
        | none => rfl
        | some kind => cases kind <;> rfl
      · split
        · rfl
        · rw [lookup_bare bare]
          cases (v vfs).lookupImpl loc ((c :: cs).takeWhile (· ≠ slash)) with
          | error e => rfl
          | ok next => exact arrives next _ below

/-- While nothing is mounted on the root filesystem, a walk is that of `Path` in its tree. -/
theorem walk_bare (alone : s.all = [.first vfs]) (fuel : Nat) (e : Entry) (path : Name)
    (follow : Bool) : walk v s fuel (located vfs e) path follow =
      match Path.walk (v vfs).toTree fuel e path follow with
      | some r => locatedOutcome vfs r
      | none => .hang := by
  unfold walk Path.walk Path.walkStart
  split
  · rfl
  · cases path with
    | nil => rfl
    | cons first rest =>
      have root : s.rootLoc v = .ok (located vfs (.node (v vfs).root)) := by
        unfold Table.rootLoc
        rw [alone]
        rfl
      have start : (⟨if first = slash then located vfs (.node (v vfs).root) else located vfs e,
          [first :: rest], 0⟩ : Walker) = locatedWalker vfs
            ⟨if first = slash then .node (v vfs).root else e, [first :: rest], 0⟩ := by
        unfold locatedWalker
        split <;> rfl
      dsimp only
      rw [root, ok_bind, start, loop_map (walkStep_bare bare follow)]
      cases loop (Path.walkStep (v vfs).toTree follow) fuel _ <;> rfl

end Bare

theorem rootLoc_valid (h : s.rootLoc v = .ok r) : r.Valid s := by
  unfold Table.rootLoc at h
  split at h
  · cases h
  · rename_i m rest all
    cases h
    apply Mount.rootLoc_valid
    rw [all]
    exact .head rest

variable {root : Loc} {follow : Bool} {w : Walker}

variable {w' : Walker} {rest path tail : Name} {below names : List Name} {c : Cache}
  {fuel : Nat}

theorem arrive_valid (rootValid : root.Valid s) (valid : w.loc.Valid s) (nextValid : next.Valid s)
    (h : arrive v root follow w next rest below = .inl w') : w'.loc.Valid s := by
  unfold arrive at h
  dsimp only at h
  split at h
  · split at h
    · cases h
    · cases h
      exact nextValid
  · split at h
    · split at h
      · cases h
      · split at h
        · cases h
        · split at h
          · cases h
          · cases h
            split
            · exact rootValid
            · exact valid
    · cases h
      exact valid
  · cases h
    exact nextValid

theorem arrive_ne_ok : arrive v root follow w next rest below ≠ .inr (.ok r) := by
  intro h
  unfold arrive at h
  dsimp only at h
  split at h
  · split at h <;> cases h
  · split at h
    · split at h
      · cases h
      · split at h
        · cases h
        · split at h <;> cases h
    · cases h
  · cases h

theorem walkStep_ok (h : walkStep v s root follow w = .inr (.ok r)) : r = w.loc := by
  unfold walkStep at h
  split at h
  · cases h
  · split at h
    · cases h
      rfl
    · cases h
  · split at h
    · split at h <;> cases h
    · dsimp only at h
      split at h
      · cases h
      · split at h
        · exact absurd h arrive_ne_ok
        all_goals cases h

/-- Only the root of a filesystem has its inode number. -/
theorem exitMounts_of_parent {c' : Cache} (sameVfs : c.vfs = m.vfs) (h : c.parent v = some c') :
    exitMounts v c m = ⟨c, m⟩ := by
  cases m with
  | first vfs => rfl
  | within vfs point k =>
    unfold exitMounts
    rw [if_neg]
    intro same
    obtain ⟨cvfs, entry⟩ := c
    cases sameVfs
    cases entry with
    | negative dir name => exact (v vfs).root_ino_ne_zero same.symm
    | node n =>
      have root := (v vfs).root_ino same
      subst root
      simp [Cache.parent, Path.Tree.parentOf, (v vfs).root_parent] at h

namespace Inv

variable (inv : Inv v s)

include inv

theorem enterMounts_ok (loc : Loc) : ∃ r, enterMounts v s loc = .ok r := by
  obtain ⟨r, run⟩ := inv.ends loc
  exists r
  unfold enterMounts
  rw [run]

/-- Entering mounts changes nothing of where leaving them leads. -/
theorem enterMounts_spec (valid : loc.Valid s) (h : enterMounts v s loc = .ok r) :
    r.Valid s ∧ s.mounted r.cache = none ∧
      exitMounts v r.cache r.mount = exitMounts v loc.cache loc.mount := by
  apply loop_invariant (I := fun l =>
      l.Valid s ∧ exitMounts v l.cache l.mount = exitMounts v loc.cache loc.mount) _ _
      (enterMounts_eq_ok h) ⟨valid, rfl⟩
  · intro l l' ⟨valid, same⟩ hs
    obtain ⟨m, mounted, rfl⟩ := enterStep_eq_inl hs
    constructor
    · exact Mount.rootLoc_valid (inv.mounted_mem mounted)
    · rw [← same]
      exact inv.leaves mounted valid.1 valid.2.symm
  · intro l r ⟨valid, same⟩ hs
    obtain ⟨mounted, rfl⟩ := enterStep_eq_inr hs
    exact ⟨valid, mounted, same⟩

theorem exitMounts_valid {m : Mount} (valid : Loc.Valid s ⟨c, m⟩) :
    (exitMounts v c m).Valid s := by
  induction m generalizing c with
  | first vfs => exact valid
  | within vfs point k ih =>
    unfold exitMounts
    split
    · exact ih (inv.parent_valid valid.1)
    · exact valid

theorem lookupImpl_valid (valid : loc.Valid s) (h : lookupImpl v s loc name = .ok r) :
    r.Valid s := by
  unfold lookupImpl at h
  split at h
  · cases h
    exact valid
  split at h
  · have out := inv.exitMounts_valid valid
    dsimp only at h
    split at h
    · rename_i p parent
      cases h
      obtain ⟨q, -, rfl⟩ := map_eq_some_iff.mp parent
      exact out
    · cases h
      exact out
  · obtain ⟨inner, entered, h⟩ := bind_eq_ok h
    obtain ⟨valid, -, -⟩ := inv.enterMounts_spec valid entered
    split at h
    · split at h
      · split at h
        all_goals
          cases h
          exact valid
      · cases h
    · cases h

theorem lookup_spec (valid : loc.Valid s) (h : lookup v s loc name = .ok r) :
    r.Valid s ∧ s.mounted r.cache = none := by
  obtain ⟨inner, found, entered⟩ := bind_eq_ok h
  obtain ⟨valid, top, -⟩ := inv.enterMounts_spec (inv.lookupImpl_valid valid found) entered
  exact ⟨valid, top⟩

theorem vfsLoc_valid {file : Option Nat} (h : vfsLoc v s file = .ok r) : r.Valid s := by
  cases file with
  | none => exact rootLoc_valid h
  | some i =>
    unfold vfsLoc at h
    dsimp only at h
    split at h
    · rename_i found
      cases h
      exact inv.files_valid (mem_of_getElem? found)
    · cases h

theorem walkStep_valid {w : Walker} (rootValid : root.Valid s) (valid : w.loc.Valid s)
    (h : walkStep v s root follow w = .inl w') : w'.loc.Valid s := by
  unfold walkStep at h
  split at h
  · cases h
  · split at h
    · cases h
    · cases h
      exact valid
  · split at h
    · split at h
      · cases h
      · cases h
        exact valid
      · cases h
    · dsimp only at h
      split at h
      · cases h
      · split at h
        · rename_i found
          exact arrive_valid rootValid valid (inv.lookup_spec valid found).1 h
        all_goals cases h

theorem walk_valid (valid : loc.Valid s) (h : walk v s fuel loc path follow = .ok r) :
    r.Valid s := by
  unfold walk at h
  split at h
  · cases h
  split at h
  · cases h
  rename_i first _ _
  obtain ⟨root, hroot, h⟩ := bind_eq_ok h
  have rootValid := rootLoc_valid hroot
  have startValid : (if first = slash then root else loc).Valid s := by
    split
    · exact rootValid
    · exact valid
  dsimp only at h
  split at h
  · rename_i run
    subst h
    apply loop_invariant (I := fun w : Walker => w.loc.Valid s)
      (Q := fun o => ∀ r, o = .ok r → r.Valid s)
      _ _ run startValid r rfl
    · intro w w' valid
      exact inv.walkStep_valid rootValid valid
    · intro w o valid hs r ho
      subst ho
      rw [walkStep_ok hs]
      exact valid
  · cases h

theorem locate_valid (valid : loc.Valid s) (h : locate v s fuel loc path follow = .ok r) :
    r.Valid s := by
  obtain ⟨inner, hin, h₁⟩ := bind_eq_ok h
  have same : inner = loc := by
    unfold toCache at hin
    split at hin
    · cases hin
      rfl
    · cases hin
  rw [same] at h₁
  obtain ⟨res, walked, h₂⟩ := bind_eq_ok h₁
  split at h₂
  · cases h₂
  · cases h₂
    exact inv.walk_valid valid walked

/-- `..` undoes the lookup of a name. -/
theorem lookup_dotDot (valid : dir.Valid s) (ordinary : Ordinary name)
    (found : lookup v s dir name = .ok d) :
    ∃ dir', enterMounts v s dir = .ok dir' ∧ lookup v s d dotDot = .ok dir' := by
  obtain ⟨inner, h, entered⟩ := bind_eq_ok found
  obtain ⟨-, -, notDot, notDotDot⟩ := ordinary
  have innerValid := inv.lookupImpl_valid valid h
  obtain ⟨-, -, out⟩ := inv.enterMounts_spec innerValid entered
  unfold lookupImpl at h
  rw [if_neg notDot, if_neg notDotDot] at h
  obtain ⟨dir', entered', h⟩ := bind_eq_ok h
  obtain ⟨-, top, -⟩ := inv.enterMounts_spec valid entered'
  -- the entry is below the root, so leaving stops at it
  have below : inner.mount = dir'.mount ∧ inner.cache.parent v = some dir'.cache := by
    split at h
    · rename_i n entry
      split at h
      · split at h
        · rename_i m child
          cases h
          constructor
          · rfl
          · have parent := (v dir'.cache.vfs).parent_child child
            simp [Cache.parent, Path.Tree.parentOf, parent, ← entry]
        · cases h
          simp [Cache.parent, Path.Tree.parentOf, ← entry]
      · cases h
    · cases h
  obtain ⟨sameMount, parent⟩ := below
  exists dir'
  constructor
  · exact entered'
  have stop := out.trans (exitMounts_of_parent innerValid.2 parent)
  unfold lookup lookupImpl
  simp only [stop, parent, sameMount]
  exact enterMounts_of_not_mounted top

/-- As many `..` as there are names lead back to the start. -/
theorem ascend_of_descends (valid : root.Valid s) (h : Descends v s root names d) : d.Valid s ∧
    ∀ {d'}, enterMounts v s d = .ok d' → ascend v s names.length d' = enterMounts v s root := by
  induction h with
  | here =>
    constructor
    · exact valid
    · intro d' entered
      rw [entered]
      rfl
  | down _ ordinary found _ ih =>
    obtain ⟨dirValid, back⟩ := ih
    obtain ⟨dValid, top⟩ := inv.lookup_spec dirValid found
    constructor
    · exact dValid
    · intro d' entered
      rw [enterMounts_of_not_mounted top] at entered
      cases entered
      obtain ⟨dir', entered', up⟩ := inv.lookup_dotDot dirValid ordinary found
      rw [length_append, length_singleton, ascend, up, ok_bind]
      exact back entered'

theorem invertible : Invertible v s := by
  intro root dir d names name hroot above ordinary found isDir
  have valid := rootLoc_valid hroot
  obtain ⟨dirValid, -⟩ := inv.ascend_of_descends valid above
  obtain ⟨-, back⟩ := inv.ascend_of_descends valid (above.down ordinary found isDir)
  obtain ⟨-, top⟩ := inv.lookup_spec dirValid found
  have up := back (enterMounts_of_not_mounted top)
  obtain ⟨dir', entered, undo⟩ := inv.lookup_dotDot dirValid ordinary found
  obtain ⟨root', rootEntered⟩ := inv.enterMounts_ok root
  rw [length_append, length_singleton] at up
  constructor
  · exact ⟨dir', dir', undo, entered, rfl⟩
  · exact ⟨root', root', up.trans rootEntered, rootEntered, rfl⟩

end Inv

/-- A new mount continues the ways that ended where it is mounted. -/
theorem loop_enterStep_update (free : s.mounted c = none)
    (mounted' : s'.mounted = update s.mounted c (some m)) (other : rootCache v m.vfs ≠ c)
    (rootFree : s.mounted (rootCache v m.vfs) = none) (h : loop (enterStep v s) fuel loc = some r) :
    loop (enterStep v s') (fuel + 1) loc = some (if r.cache = c then m.rootLoc v else r) := by
  induction fuel generalizing loc with
  | zero => cases h
  | succ fuel ih =>
    rw [loop] at h ⊢
    cases hm : s.mounted loc.cache with
    | some k =>
      have ne : loc.cache ≠ c := by
        rintro rfl
        rw [free] at hm
        cases hm
      have go : enterStep v s' loc = .inl (k.rootLoc v) := by
        rw [enterStep, mounted', update_of_ne ne, hm]
      rw [enterStep, hm] at h
      rw [go]
      exact ih h
    | none =>
      rw [enterStep, hm] at h
      obtain rfl : r = loc := (Option.some.inj h).symm
      by_cases hc : r.cache = c
      · have go : enterStep v s' r = .inl (m.rootLoc v) := by
          rw [enterStep, mounted', hc, update_self]
        have stop : enterStep v s' (m.rootLoc v) = .inr (m.rootLoc v) := by
          rw [enterStep, mounted', Mount.rootLoc, update_of_ne other, rootFree]
        rw [go, if_pos hc]
        dsimp only
        rw [loop, stop]
      · have stop : enterStep v s' r = .inr r := by
          rw [enterStep, mounted', update_of_ne hc, hm]
        rw [stop, if_neg hc]

/-- What a `mount` call has to meet, where `res` is the place that its path leads to
and `loc` is where the walk starts: both are in the same mount, the filesystem of
the mount point is mounted only there, and the filesystem that is mounted is not
mounted yet or has no mount points. -/
structure Placed (v : Nat → Volume) (s : Table) (fs : FsType) (loc res : Loc) : Prop where
  sameMount : res.mount = loc.mount
  once {point : Loc} {k : Mount} : enterMounts v s res = .ok point → k ∈ s.all →
    k.vfs = point.cache.vfs → k = point.mount
  bare {point : Loc} : enterMounts v s res = .ok point →
    (∀ k ∈ s.all, k.vfs ≠ s.vfsOf fs) ∨
    (point.cache.vfs ≠ s.vfsOf fs ∧ ∀ {c}, s.mounted c ≠ none → c.vfs ≠ s.vfsOf fs)

def Calm (v : Nat → Volume) (s : Table) : Call → Prop
  | .openFile _ _ _ _ => True
  | .mount file path follow fuel fs => s.all ≠ [] → ∀ {loc res}, vfsLoc v s file = .ok loc →
    locate v s fuel loc path follow = .ok res → Placed v s fs loc res

theorem Inv.push_first {m : Nat} (inv : Inv v s) (empty : s.all = []) :
    Inv v (s.push (.first m)) := by
  have bare {c : Cache} : s.mounted c = none := by
    cases hc : s.mounted c with
    | none => rfl
    | some k =>
      have mem := inv.mounted_mem hc
      rw [empty] at mem
      cases mem
  have more {k : Mount} h : k ∈ (s.push (.first m)).all := mem_append_left _ h
  constructor
  case mounted_mem | point_mem =>
    intro c k h
    rw [show (s.push (.first m)).mounted c = s.mounted c from rfl, bare] at h
    cases h
  case parent_valid =>
    intro vfs c k h
    rw [Table.push, empty] at h
    simp at h
  case leaves =>
    intro c k k' h
    rw [show (s.push (.first m)).mounted c = s.mounted c from rfl, bare] at h
    cases h
  case ends =>
    intro loc
    exists loc
    rw [loop, enterStep, show (s.push (.first m)).mounted loc.cache = s.mounted loc.cache
      from rfl, bare]
  case files_valid =>
    intro loc h
    exact (inv.files_valid h).mono more

section Push

variable {fs : FsType} {loc res point : Loc}

/-- Nothing is mounted in a new filesystem. -/
theorem Placed.bare_of_mounted {c : Cache} (inv : Inv v s)
    (entered : enterMounts v s res = .ok point) (placed : Placed v s fs loc res)
    (used : s.mounted c ≠ none) : c.vfs ≠ s.vfsOf fs := by
  cases placed.bare entered with
  | inl notYet =>
    obtain ⟨k, hk⟩ := ne_none_iff_exists'.mp used
    obtain ⟨k', mem, same⟩ := inv.point_mem hk
    intro hc
    exact notYet k' mem (same.trans hc)
  | inr empty => exact empty.2 used

theorem Placed.bare_of_point (entered : enterMounts v s res = .ok point)
    (placed : Placed v s fs loc res) (valid : point.Valid s) : point.cache.vfs ≠ s.vfsOf fs := by
  cases placed.bare entered with
  | inl notYet =>
    intro hc
    exact notYet point.mount valid.1 (valid.2.symm.trans hc)
  | inr empty => exact empty.1

/-- Leaving the new mount leads where leaving from its mount point leads, and leaving the others
leads where it did. -/
theorem Inv.leaves_push {c : Cache} {k k' : Mount} (inv : Inv v s) (valid : res.Valid s)
    (entered : enterMounts v s res = .ok point) (placed : Placed v s fs loc res)
    (hm : m = .within (s.vfsOf fs) res.cache res.mount)
    (here : update s.mounted point.cache (some m) c = some k) (mem : k' ∈ s.all ++ [m])
    (same : k'.vfs = c.vfs) : exitMounts v (rootCache v k.vfs) k = exitMounts v c k' := by
  obtain ⟨pointValid, -, out⟩ := inv.enterMounts_spec valid entered
  have hvfs : m.vfs = s.vfsOf fs := by
    rw [hm]
    rfl
  by_cases hc : c = point.cache
  · rw [hc, update_self] at here
    cases here
    rw [hc] at same
    have old : k' ∈ s.all := by
      cases mem_append.mp mem with
      | inl old => exact old
      | inr last =>
        cases mem_singleton.mp last
        exact absurd (same.symm.trans hvfs) (placed.bare_of_point entered pointValid)
    rw [placed.once entered old same, hc, out, hm, exitMounts, Mount.vfs, if_pos rfl]
  · rw [update_of_ne hc] at here
    cases mem_append.mp mem with
    | inl old => exact inv.leaves here old same
    | inr last =>
      cases mem_singleton.mp last
      have used : s.mounted c ≠ none := by simp [here]
      exact absurd (same.symm.trans hvfs) (placed.bare_of_mounted inv entered used)

theorem Inv.push_within (inv : Inv v s) (valid : res.Valid s)
    (entered : enterMounts v s res = .ok point) (placed : Placed v s fs loc res)
    (hm : m = .within (s.vfsOf fs) res.cache res.mount) (hall : s'.all = s.all ++ [m])
    (hmounted : s'.mounted = update s.mounted point.cache (some m)) (hfiles : s'.files = s.files) :
    Inv v s' := by
  obtain ⟨pointValid, free, -⟩ := inv.enterMounts_spec valid entered
  have hvfs : m.vfs = s.vfsOf fs := by
    rw [hm]
    rfl
  have more {k : Mount} (h : k ∈ s.all) : k ∈ s'.all := by
    rw [hall]
    exact mem_append_left _ h
  have new : m ∈ s'.all := by
    rw [hall]
    exact mem_append_right _ (.head _)
  constructor
  case mounted_mem =>
    intro c k h
    rw [hmounted] at h
    by_cases hc : c = point.cache
    · rw [hc, update_self] at h
      cases h
      exact new
    · rw [update_of_ne hc] at h
      exact more (inv.mounted_mem h)
  case point_mem =>
    intro c k h
    rw [hmounted] at h
    by_cases hc : c = point.cache
    · exact ⟨point.mount, more pointValid.1, by rw [hc, pointValid.2]⟩
    · rw [update_of_ne hc] at h
      obtain ⟨k', mem, same⟩ := inv.point_mem h
      exact ⟨k', more mem, same⟩
  case parent_valid =>
    intro vfs c k h
    rw [hall] at h
    cases mem_append.mp h with
    | inl old => exact (inv.parent_valid old).mono more
    | inr last =>
      rw [hm] at last
      cases mem_singleton.mp last
      exact valid.mono more
  case leaves =>
    intro c k k' h mem same
    rw [hmounted] at h
    rw [hall] at mem
    exact inv.leaves_push valid entered placed hm h mem same
  case ends =>
    intro loc
    -- the root of the new filesystem is neither a mount point nor the one that becomes it
    have rootFree : s.mounted (rootCache v m.vfs) = none := by
      by_contra used
      exact placed.bare_of_mounted inv entered used hvfs
    have rootNe : rootCache v m.vfs ≠ point.cache := fun h =>
      placed.bare_of_point entered pointValid ((congrArg Cache.vfs h).symm.trans hvfs)
    obtain ⟨r, run⟩ := inv.ends loc
    rw [hall, length_append, length_singleton]
    exact ⟨_, loop_enterStep_update free hmounted rootNe rootFree run⟩
  case files_valid =>
    intro loc h
    rw [hfiles] at h
    exact (inv.files_valid h).mono more

end Push

variable {call : Call}

theorem step_eq_some (h : step v call s = some s') : call.run v s = .ok s' := by
  unfold step at h
  split at h
  · rename_i run
    cases h
    exact run
  · cases h

theorem step_inv (calm : Calm v s call) (inv : Inv v s) (h : step v call s = some s') :
    Inv v s' := by
  have run := step_eq_some h
  cases call with
  | openFile file path follow fuel =>
    obtain ⟨loc, hloc, run⟩ := bind_eq_ok run
    obtain ⟨res, located, run⟩ := bind_eq_ok run
    cases run
    have valid := inv.locate_valid (inv.vfsLoc_valid hloc) located
    exact { inv with
        files_valid := by
          intro loc mem
          cases mem_append.mp mem with
          | inl old => exact inv.files_valid old
          | inr last =>
            cases mem_singleton.mp last
            exact valid }
  | mount file path follow fuel fs =>
    obtain ⟨parent, hparent, run⟩ := bind_eq_ok run
    unfold mountParent at hparent
    split at hparent
    · rename_i some_
      obtain ⟨loc, hloc, hparent⟩ := bind_eq_ok hparent
      obtain ⟨res, located, hparent⟩ := bind_eq_ok hparent
      cases hparent
      have placed := calm some_ hloc located
      have valid := inv.locate_valid (inv.vfsLoc_valid hloc) located
      dsimp only at run
      split at run
      · cases run
      · obtain ⟨point, entered, run⟩ := bind_eq_ok run
        cases run
        rw [← placed.sameMount] at entered ⊢
        exact inv.push_within valid entered placed rfl rfl rfl rfl
    · rename_i empty
      split at hparent
      · cases hparent
      · cases hparent
        cases run
        exact inv.push_first (Classical.not_not.mp empty)

/-- A path with a slash before each name. -/
def spell (names : List Name) : Name := names.flatMap (slash :: ·)

theorem cut_component (noSlash : slash ∉ name) (h : tail = [] ∨ tail.head? = some slash) :
    (name ++ tail).takeWhile (· ≠ slash) = name ∧
    (name ++ tail).dropWhile (· ≠ slash) = tail := by
  have other : ∀ b ∈ name, decide (b ≠ slash) = true := by
    intro b mem
    rw [decide_eq_true_iff]
    rintro rfl
    exact noSlash mem
  rw [takeWhile_append_of_pos other, dropWhile_append_of_pos other]
  cases tail with
  | nil => exact ⟨append_nil name, rfl⟩
  | cons b rest =>
    have hb : b = slash := by simpa using h
    subst hb
    simp

/-- The walker takes the names one by one. -/
theorem Descends.returns {o : Outcome Errno Loc} (h : Descends v s root names d)
    (rootDir : root.cache.type v = some .directory)
    (short : ∀ name ∈ names, name.length ≤ nameMax)
    (startsName : tail = [] ∨ tail.head? = some slash)
    (rest : Returns (walkStep v s root follow) ⟨d, [tail], 0⟩ o) :
    Returns (walkStep v s root follow) ⟨root, [spell names ++ tail], 0⟩ o := by
  induction h generalizing tail with
  | here => exact rest
  | @down names dir d name above ordinary found isDir ih =>
    obtain ⟨nonempty, noSlash, -, -⟩ := ordinary
    obtain ⟨take, drop⟩ := cut_component noSlash startsName
    have dirDir : dir.cache.type v = some .directory := by
      cases above with
      | here => exact rootDir
      | down _ _ _ isDir => exact isDir
    have hlen := short name (by simp)
    rw [spell, flatMap_append, append_assoc]
    apply ih
    · intro other mem
      exact short other (mem_append_left _ mem)
    · simp
    · obtain ⟨c, cs, rfl⟩ := exists_cons_of_ne_nil nonempty
      have hc : c ≠ slash := by
        rintro rfl
        exact noSlash (.head _)
      have skip : walkStep v s root follow ⟨dir, [[slash :: (c :: cs)].flatten ++ tail], 0⟩ =
          .inl ⟨dir, [c :: cs ++ tail], 0⟩ := by
        simp [walkStep, dirDir]
      apply Returns.go skip
      apply Returns.go _ rest
      rw [cons_append] at take drop ⊢
      simp only [walkStep, hc, if_false, take, drop, found, Nat.not_lt.mpr hlen, arrive, isDir]

/-- `walk` along the names ends in the directory they lead to. -/
theorem walk_descends (h : Descends v s root names d) (hroot : s.rootLoc v = .ok root)
    (nonempty : names ≠ []) (short : ∀ name ∈ names, name.length ≤ nameMax)
    (fits : (spell names).length ≤ pathMax) (loc : Loc) :
    ∃ fuel, Mounts.walk v s fuel loc (spell names) follow = .ok d := by
  have rootDir : root.cache.type v = some .directory := by
    unfold Table.rootLoc at hroot
    split at hroot
    · cases hroot
    · cases hroot
      exact congrArg some (v _).root_dir
  have stop : Returns (walkStep v s root follow) ⟨d, [[]], 0⟩ (.ok d) := .stop rfl
  obtain ⟨fuel, run⟩ := h.returns rootDir short (.inl rfl) stop
  rw [append_nil] at run
  exists fuel
  obtain ⟨name, rest, rfl⟩ := exists_cons_of_ne_nil nonempty
  have head : spell (name :: rest) = slash :: (name ++ spell rest) := rfl
  rw [head] at run fits ⊢
  simp only [Mounts.walk, if_neg (Nat.not_lt.mpr fits), gt_iff_lt, hroot, ok_bind, if_true, run]

theorem mounts_invertible (reached : Reaches (step v) (Calm v) start s) : Invertible v s :=
  (reached.invariant start_inv step_inv).invertible

/-- The first mount of a filesystem. `Calm` is about all entries of the cache, and this about
the mounts only. -/
def FirstMount (v : Nat → Volume) (s : Table) : Call → Prop
  | .openFile _ _ _ _ => True
  | .mount file path follow fuel fs =>
    match vfsLoc v s file with
    | .ok loc => match locate v s fuel loc path follow with
      | .ok res => match enterMounts v s res with
        | .ok point => res.mount = loc.mount ∧ (∀ k ∈ s.all, k.vfs = point.cache.vfs →
          k = point.mount) ∧ ∀ k ∈ s.all, k.vfs ≠ s.vfsOf fs
        | _ => res.mount = loc.mount
      | _ => True
    | _ => True

instance (call : Call) : Decidable (FirstMount v s call) := by
  unfold FirstMount
  repeat' split
  all_goals infer_instance

theorem FirstMount.calm (first : FirstMount v s call) : Calm v s call := by
  cases call with
  | openFile => trivial
  | mount file path follow fuel fs =>
    intro _ loc res hloc located
    simp only [FirstMount, hloc, located] at first
    split at first
    · rename_i point entered
      obtain ⟨same, once, fresh⟩ := first
      constructor
      case sameMount => exact same
      case once =>
        intro point' k entered'
        cases entered.symm.trans entered'
        exact once k
      case bare =>
        intro point' _
        exact .inl fresh
    · rename_i hang
      constructor
      case sameMount => exact first
      case once =>
        intro point k entered
        exact absurd entered (hang point)
      case bare =>
        intro point entered
        exact absurd entered (hang point)

/-- A filesystem with the directories `/`, `/a`, `/a/a` and so on. -/
def nested : Volume where
  root := 0
  kind _ := .directory
  parent n := if n = 0 then none else some (n - 1)
  child n name := if name = [97] then some (n + 1) else none
  root_dir := rfl
  parent_dir _ := rfl
  ino n := n + 1
  usesInodes := true
  parent_child h := by
    obtain ⟨-, ⟨⟩⟩ := ite_none_right_eq_some.mp h
    rfl
  root_parent := rfl
  root_ino := Nat.succ.inj
  root_ino_ne_zero := Nat.one_ne_zero

/-- The places on the way along `/a/a` and back to the top. -/
def thereAndBack (s : Table) : Outcome Errno (Loc × Loc × Loc × Loc) := do
  let root ← s.rootLoc fun _ => nested
  let dir ← lookup (fun _ => nested) s root [97]
  let d ← lookup (fun _ => nested) s dir [97]
  let top ← ascend (fun _ => nested) s 2 d
  .ok (root, dir, d, top)

theorem thereAndBack_eq_ok {d top : Loc} (h : thereAndBack s = .ok (root, dir, d, top)) :
    s.rootLoc (fun _ => nested) = .ok root ∧ lookup (fun _ => nested) s root [97] = .ok dir ∧
      lookup (fun _ => nested) s dir [97] = .ok d ∧ ascend (fun _ => nested) s 2 d = .ok top := by
  obtain ⟨_, hroot, h⟩ := bind_eq_ok h
  obtain ⟨_, first, h⟩ := bind_eq_ok h
  obtain ⟨_, second, h⟩ := bind_eq_ok h
  obtain ⟨_, back, h⟩ := bind_eq_ok h
  cases h
  exact ⟨hroot, first, second, back⟩

theorem nested_descends {d : Loc} (above : Descends (fun _ => nested) s root names dir)
    (found : lookup (fun _ => nested) s dir [97] = .ok d) (isRoot : d.cache.entry = .node 0) :
    Descends (fun _ => nested) s root (names ++ [[97]]) d := by
  apply above.down (by decide) found
  rw [Cache.type, isRoot]
  rfl

/-- `/a` is opened, and `a` is mounted on from there. -/
def nestedMounts : List Call :=
  [.mount none [47] true 9 .driver, .mount none [47, 97] true 9 .driver,
    .openFile none [47, 97] true 9, .mount (some 0) [97] true 9 .driver]

abbrev nestedPlaces : Loc × Loc × Loc × Loc :=
  (⟨⟨1, .node 0⟩, .first 1⟩, ⟨⟨2, .node 0⟩, .within 2 ⟨1, .node 1⟩ (.first 1)⟩,
    ⟨⟨3, .node 0⟩, .within 3 ⟨2, .node 1⟩ (.within 2 ⟨1, .node 1⟩ (.first 1))⟩,
      ⟨⟨1, .node 0⟩, .first 1⟩)

theorem nestedMounts_reached : ∃ s, Reaches (step fun _ => nested) (Calm fun _ => nested)
    start s ∧ s.all.length = 3 ∧ thereAndBack s = .ok nestedPlaces := by
  obtain ⟨s, reached, facts⟩ : ∃ s, Reaches (step fun _ => nested)
    (FirstMount fun _ => nested) start s ∧
      s.all.length = 3 ∧ thereAndBack s = .ok nestedPlaces :=
        exists_of_run nestedMounts (by decide +kernel)
  exact ⟨s, reached.mono FirstMount.calm, facts⟩

/-- The walk along `/a/a` goes through two mounts. -/
theorem walk_nested : ∃ s n, Reaches (step fun _ => nested) (fun _ _ => True) start s ∧
    s.all.length = 3 ∧
    walk (fun _ => nested) s n ⟨⟨1, .node 5⟩, .first 1⟩ [47, 97, 47, 97] true =
      .ok ⟨⟨3, .node 0⟩, .within 3 ⟨2, .node 1⟩
        (.within 2 ⟨1, .node 1⟩ (.first 1))⟩ := by
  obtain ⟨s, reached, count, facts⟩ := nestedMounts_reached
  obtain ⟨hroot, first, second, -⟩ := thereAndBack_eq_ok facts
  obtain ⟨n, walked⟩ := walk_descends (nested_descends (nested_descends .here first rfl) second
    rfl) hroot (by decide) (by decide) (by decide) ⟨⟨1, .node 5⟩, .first 1⟩
  exact ⟨s, n, reached.mono fun _ => trivial, count, walked⟩

theorem mounts_invertible_nested : ∃ s root d, Reaches (step fun _ => nested)
    (Calm fun _ => nested) start s ∧
    s.all.length = 3 ∧ s.rootLoc (fun _ => nested) = .ok root ∧ d.cache.vfs = 3 ∧
    SameDirectory (ascend (fun _ => nested) s 2 d) (enterMounts (fun _ => nested) s root) := by
  obtain ⟨s, reached, count, facts⟩ := nestedMounts_reached
  obtain ⟨hroot, first, second, -⟩ := thereAndBack_eq_ok facts
  have back :=
    mounts_invertible reached hroot (nested_descends .here first rfl) (by decide) second rfl
  exact ⟨s, _, _, reached, count, hroot, rfl, back.2⟩

/-- The third filesystem is mounted at `/a/a`, with the root mount for the one of `/a`.
Two times `..` from there stays at `/a`. -/
theorem not_mounts_invertible : ∃ s, Reaches (step fun _ => nested) (fun _ _ => True) start s ∧
    ¬ Invertible (fun _ => nested) s := by
  have facts : (run (step fun _ => nested) (fun _ _ => True)
      [.mount none [47] true 9 .driver, .mount none [47, 97] true 9 .driver,
        .mount none [47, 97, 47, 97] true 9 .driver] start).map
      (fun s => (s.mounted ⟨1, .node 0⟩, thereAndBack s)) =
      some (none, .ok (⟨⟨1, .node 0⟩, .first 1⟩,
        ⟨⟨2, .node 0⟩, .within 2 ⟨1, .node 1⟩ (.first 1)⟩,
        ⟨⟨3, .node 0⟩, .within 3 ⟨2, .node 1⟩ (.first 1)⟩,
          ⟨⟨2, .node 0⟩, .first 1⟩)) := by decide +kernel
  obtain ⟨s, hrun, facts⟩ := map_eq_some_iff.mp facts
  obtain ⟨bare, facts⟩ := Prod.mk.inj facts
  obtain ⟨hroot, first, second, back⟩ := thereAndBack_eq_ok facts
  exists s
  constructor
  · exact .of_run .init hrun
  intro invertible
  obtain ⟨-, a, b, ha, hb, same⟩ :=
    invertible hroot (nested_descends .here first rfl) (by decide) second rfl
  cases back.symm.trans ha
  cases (enterMounts_of_not_mounted bare).symm.trans hb
  cases same

end BadgerOS.Mounts
