import BadgerOS.Vfs.Names
import BadgerOS.Vfs.DentCache

/-!
# Directories by inode number

`Namespace` has the directories as a tree of entries and `DentCache` has them by inode number.
Both are the ideal directories of one filesystem: every operation on the one has the result, or
the error, that it has on the other.
-/

namespace BadgerOS.Namespace

open Function BadgerOS.Path

variable {t t' : Fs} {f f' : DentCache.Fs} {d d' n m x i : Nat} {c c' y : Name} {kind : Kind}

/-- The directories of the tree, by inode number. -/
structure Shows (t : Fs) (f : DentCache.Fs) : Prop where
  root : f.root = t.ino t.root
  next : f.next = t.nextIno
  kind {n : Nat} : n < t.next → f.kind (t.ino n) = t.kind n
  /-- A directory has one entry. -/
  once {n m : Nat} : n < t.next → m < t.next → t.kind n = .directory →
    t.ino n = t.ino m → n = m
  find {d : Nat} (c : Name) : t.Usable d → f.find (t.ino d) c = t.find d c
  fresh {i : Nat} (c : Name) : t.nextIno ≤ i → f.find i c = none
  removed {d : Nat} : d < t.next → t.kind d = .directory →
    (f.removed (t.ino d) = false ↔ t.Usable d)
  listed {i : Nat} {c : Name} : f.find i c ≠ none → (i, c) ∈ f.names

/-- The same error, or results that are related. -/
def Same {α β : Type} (R : α → β → Prop) : Outcome Errno α → Except Errno β → Prop
  | .ok a, .ok b => R a b
  | .err e, .error e' => e = e'
  | _, _ => False

namespace Fs

theorem Usable.lt (h : t.Usable d) : d < t.next := h.2.lt

theorem isEmpty_iff : t.isEmpty d = true ↔ ∀ c, t.child d c = none := by
  constructor
  · exact t.child_eq_none_of_isEmpty
  · intro none
    refine decide_eq_true fun n _ => ?_
    simp [none]

/-- The entry of a removed name is not in the tree any more, the others are. -/
theorem usable_remove {bare : ∀ {n}, t.child d c = some n → ∀ c', t.child n c' = none} :
    (t.remove d c bare).Usable x ↔ t.Usable x ∧ t.child d c ≠ some x := by
  have child : (t.remove d c bare).child = t.setChild d c none := rfl
  constructor
  · rintro ⟨dir, root | ⟨p, parent, entry⟩⟩
    · refine ⟨⟨dir, .inl root⟩, fun found => ?_⟩
      exact t.root_ne found (show t.root = x from root.symm)
    · rw [child] at entry
      obtain ⟨-, -, none⟩ | old := t.setChild_eq_some entry
      · cases none
      · refine ⟨⟨dir, .inr ⟨p, parent, old⟩⟩, fun found => ?_⟩
        have both := (t.child_parent old).symm.trans (t.child_parent found)
        obtain rfl : p = d := Option.some.inj both
        obtain rfl : t.name x = c := t.child_name found
        change t.setChild p (t.name x) none p (t.name x) = some x at entry
        rw [setChild_same] at entry
        cases entry
  · rintro ⟨⟨dir, root | ⟨p, parent, entry⟩⟩, other⟩
    · exact ⟨dir, .inl root⟩
    · refine ⟨dir, .inr ⟨p, parent, ?_⟩⟩
      rw [child]
      change t.setChild d c none p (t.name x) = some x
      rw [setChild_other]
      · exact entry
      · rintro ⟨rfl, rfl⟩
        exact other entry

variable {usable : t.Usable d} {absent : t.child d c = none}

/-- What was in the tree is in it still. -/
theorem usable_add {sameKind : ∀ {n}, n < t.next → t.ino n = i → t.kind n = kind}
    (old : x < t.next) : (t.add d c kind i usable absent sameKind).Usable x ↔ t.Usable x := by
  have ne : x ≠ t.next := old.ne
  have kinds : (t.add d c kind i usable absent sameKind).kind x = t.kind x := update_of_ne ne ..
  have parents : (t.add d c kind i usable absent sameKind).parent x = t.parent x :=
    update_of_ne ne ..
  have names : (t.add d c kind i usable absent sameKind).name x = t.name x := update_of_ne ne ..
  have entry (p : Nat) : t.setChild d c (some t.next) p (t.name x) = some x ↔
      t.child p (t.name x) = some x := by
    constructor
    · intro new
      obtain ⟨-, -, this⟩ | old := t.setChild_eq_some new
      · exact absurd (Option.some.inj this).symm ne
      · exact old
    · intro old
      rw [setChild_other]
      · exact old
      · rintro ⟨rfl, rfl⟩
        rw [absent] at old
        cases old
  unfold Usable Attached
  rw [kinds, parents, names]
  change _ ∧ (x = t.root ∨ ∃ p, _ ∧ t.setChild d c (some t.next) p (t.name x) = some x) ↔
    _
  simp only [entry]

theorem usable_add_new {sameKind : ∀ {n}, n < t.next → t.ino n = i → t.kind n = kind}
    (dir : kind = .directory) : (t.add d c kind i usable absent sameKind).Usable t.next := by
  refine ⟨(update_self ..).trans dir, .inr ⟨d, update_self .., ?_⟩⟩
  change t.setChild d c (some t.next) d (update t.name t.next c t.next) = _
  rw [update_self, setChild_same]

/-- An entry that has moved is in the tree at its new place. -/
theorem usable_move {usable : t.Usable d'} {absent : t.child d' c' = none}
    (found : t.child d c = some n) :
    (t.move d c d' c' found usable absent).Usable x ↔ t.Usable x := by
  unfold Usable Attached
  change t.kind x = .directory ∧ (x = t.root ∨ ∃ p, update t.parent n (some d') x = some p ∧
    t.moveChild n d c d' c' p (update t.name n c' x) = some x) ↔ _
  by_cases moved : x = n
  · subst moved
    rw [update_self, update_self]
    have here : t.Attached x := attached_of_child found
    constructor
    · exact fun h => ⟨h.1, here⟩
    · exact fun h => ⟨h.1, .inr ⟨d', rfl, if_pos ⟨rfl, rfl⟩⟩⟩
  · rw [update_of_ne moved, update_of_ne moved]
    have entry (p : Nat) : t.moveChild n d c d' c' p (t.name x) = some x ↔
        t.child p (t.name x) = some x := by
      constructor
      · intro new
        obtain ⟨-, -, this⟩ | ⟨-, old⟩ := t.moveChild_eq_some found new
        · exact absurd this moved
        · exact old
      · exact t.moveChild_of_ne found absent moved
    simp only [entry]

end Fs

namespace Shows

variable (h : Shows t f)
include h

theorem ino_eq_iff (usable : t.Usable d) (usable' : t.Usable x) : t.ino x = t.ino d ↔ x = d :=
  ⟨fun same => h.once usable'.lt usable.lt usable'.1 same, fun same => by rw [same]⟩

theorem find_none (usable : t.Usable d) (absent : t.child d c = none) :
    f.find (t.ino d) c = none := by
  rw [h.find c usable, Fs.find, absent, Option.map_none]

theorem find_some (usable : t.Usable d) (found : t.child d c = some n) :
    f.find (t.ino d) c = some (t.ino n) := by
  rw [h.find c usable, Fs.find, found, Option.map_some]

theorem isEmpty (usable : t.Usable d) : f.isEmpty (t.ino d) = t.isEmpty d := by
  rw [Bool.eq_iff_iff, Fs.isEmpty_iff]
  have found (c : Name) : f.find (t.ino d) c = none ↔ t.child d c = none := by
    rw [h.find c usable, Fs.find, Option.map_eq_none_iff]
  unfold DentCache.Fs.isEmpty
  rw [decide_eq_true_iff]
  constructor
  · intro empty c
    rw [← found]
    by_contra there
    exact there (empty _ (h.listed there) rfl)
  · rintro empty ⟨_, c⟩ - rfl
    exact (found c).mpr (empty c)

omit h in
theorem listed_set {e : Option Nat} (listed : ∀ {i c}, f.find i c ≠ none → (i, c) ∈ f.names)
    (there : (f.set x c e).find i y ≠ none) : (i, y) ∈ (f.set x c e).names := by
  by_cases here : i = x ∧ y = c
  · obtain ⟨rfl, rfl⟩ := here
    exact List.mem_cons_self
  · refine List.mem_cons_of_mem _ (listed ?_)
    change (if i = x ∧ y = c then e else f.find i y) ≠ none at there
    rw [if_neg here] at there
    exact there

theorem fresh_set {e : Option Nat} (usable : t.Usable d) (new : t.nextIno ≤ i) :
    (f.set (t.ino d) c e).find i y = none := by
  change (if i = t.ino d ∧ y = c then e else f.find i y) = none
  have low := t.ino_lt usable.lt
  rw [if_neg (by omega)]
  exact h.fresh y new

/-- A name that is taken away from a directory. -/
theorem remove {removed : Nat → Bool} (usable : t.Usable d)
    {bare : ∀ {n}, t.child d c = some n → ∀ c', t.child n c' = none}
    (gone : ∀ {x}, x < t.next → t.kind x = .directory → (removed (t.ino x) = false ↔
      t.Usable x ∧ t.child d c ≠ some x)) :
    Shows (t.remove d c bare) { f.set (t.ino d) c none with removed := removed } where
  root := h.root
  next := h.next
  kind := h.kind
  once := h.once
  find {x} y usable' := by
    have was := (Fs.usable_remove.mp usable').1
    change (if t.ino x = t.ino d ∧ y = c then none else f.find (t.ino x) y) =
      (t.setChild d c none x y).map t.ino
    simp only [h.ino_eq_iff usable was]
    rw [h.find y was, Fs.setChild, apply_ite (Option.map t.ino)]
    rfl
  fresh c new := h.fresh_set usable new
  removed less dir := (gone less dir).trans Fs.usable_remove.symm
  listed := listed_set h.listed

/-- `unlink` of both. -/
theorem unlink (usable : t.Usable d) (mode : UnlinkMode) :
    Same Shows (t.unlinkEntry d c mode) (f.unlink (t.ino d) c mode) := by
  unfold Fs.unlinkEntry DentCache.Fs.unlink
  split
  · rename_i found
    rw [h.find_none usable found]
    rfl
  · rename_i n found
    have less := t.child_lt found
    rw [h.find_some usable found]
    simp only [h.kind less]
    by_cases dir : t.kind n = .directory
    · have inside : t.Usable n := ⟨dir, Fs.attached_of_child found⟩
      rw [dif_pos dir, if_pos dir, h.isEmpty inside]
      by_cases only : mode = .fileOnly
      · rw [if_pos only, if_pos only]
        rfl
      rw [if_neg only, if_neg only]
      by_cases empty : t.isEmpty n = true
      · rw [dif_pos empty, if_pos empty]
        apply h.remove usable
        intro x lt isDir
        rw [found]
        by_cases this : x = n
        · subst this
          rw [update_self]
          simp
        · have other : t.ino x ≠ t.ino n := fun same => this (h.once lt less isDir same)
          rw [update_of_ne other, h.removed lt isDir]
          simp [Ne.symm this]
      · rw [dif_neg empty, if_neg empty]
        rfl
    · rw [dif_neg dir, if_neg dir]
      by_cases only : mode = .dirOnly
      · rw [if_pos only, if_pos only]
        rfl
      · rw [if_neg only, if_neg only]
        apply h.remove usable
        intro x lt isDir
        rw [h.removed lt isDir, found]
        have other : n ≠ x := by
          rintro rfl
          exact dir isDir
        simp [other]

/-- A new entry, of a new inode or of one that is not a directory. -/
theorem add (usable : t.Usable d) {absent : t.child d c = none}
    (sameKind : ∀ {n}, n < t.next → t.ino n = i → t.kind n = kind)
    (find : f'.find = (f.set (t.ino d) c (some i)).find)
    (names : f'.names = (t.ino d, c) :: f.names)
    (root : f'.root = f.root) (next : f'.next = max f.next (i + 1))
    (kinds : f'.kind = update f.kind i kind) (old : ∀ j < t.nextIno, f'.removed j = f.removed j)
    (new : kind = .directory → t.nextIno ≤ i ∧ f'.removed i = false) :
    Shows (t.add d c kind i usable absent sameKind) f' := by
  let t' := t.add d c kind i usable absent sameKind
  have inoNew : t'.ino t.next = i := update_self ..
  have kindNew : t'.kind t.next = kind := update_self ..
  have inoOld {x : Nat} (lt : x < t.next) : t'.ino x = t.ino x := update_of_ne lt.ne ..
  have kindOld {x : Nat} (lt : x < t.next) : t'.kind x = t.kind x := update_of_ne lt.ne ..
  have split {x : Nat} (lt : x < t'.next) : x = t.next ∨ x < t.next := by
    change x < t.next + 1 at lt
    omega
  constructor
  case root => rw [root, h.root]; exact (inoOld t.root_lt).symm
  case next => rw [next, h.next]; rfl
  case kind =>
    intro x lt
    rw [kinds]
    obtain rfl | lt := split lt
    · rw [inoNew, kindNew, update_self]
    · rw [inoOld lt, kindOld lt]
      by_cases same : t.ino x = i
      · rw [same, update_self, sameKind lt same]
      · rw [update_of_ne same, h.kind lt]
  case once =>
    -- The new entry is of a new inode if it is a directory.
    have alone {x : Nat} (lt : x < t.next) (dir : kind = .directory) : t.ino x ≠ i := by
      have := t.ino_lt lt
      have := (new dir).1
      omega
    intro x y hx hy dir same
    obtain rfl | hx := split hx <;> obtain rfl | hy := split hy
    · rfl
    · rw [inoNew, inoOld hy] at same
      exact absurd same.symm (alone hy (kindNew ▸ dir))
    · rw [inoNew, inoOld hx] at same
      rw [kindOld hx, sameKind hx same] at dir
      exact absurd same (alone hx dir)
    · rw [inoOld hx, inoOld hy] at same
      rw [kindOld hx] at dir
      exact h.once hx hy dir same
  case find =>
    intro x y usable'
    rw [find]
    change (if t'.ino x = t.ino d ∧ y = c then some i else f.find (t'.ino x) y) =
      (t.setChild d c (some t.next) x y).map t'.ino
    obtain rfl | lt := split usable'.lt
    · have dir : kind = .directory := kindNew ▸ usable'.1
      have away : t.next ≠ d := usable.lt.ne'
      have empty : t.child t.next y = none := by
        cases found : t.child t.next y with
        | none => rfl
        | some n => exact absurd (Fs.Attached.lt (t.child_attached found)) (lt_irrefl _)
      have low := t.ino_lt usable.lt
      rw [inoNew, if_neg (by have := (new dir).1; omega), h.fresh y (new dir).1, Fs.setChild,
        if_neg fun here => away here.1, empty]
      rfl
    · have was := (Fs.usable_add lt).mp usable'
      simp only [inoOld lt, h.ino_eq_iff usable was]
      rw [h.find y was, Fs.setChild]
      by_cases here : x = d ∧ y = c
      · rw [if_pos here, if_pos here, Option.map_some, inoNew]
      · rw [if_neg here, if_neg here, Fs.find]
        cases found : t.child x y with
        | none => rfl
        | some n => rw [Option.map_some, Option.map_some, inoOld (t.child_lt found)]
  case fresh =>
    intro j y low
    change max t.nextIno (i + 1) ≤ j at low
    rw [find]
    exact h.fresh_set usable (by omega)
  case removed =>
    intro x lt dir
    obtain rfl | lt := split lt
    · have isDir : kind = .directory := kindNew ▸ dir
      rw [inoNew]
      exact ⟨fun _ => Fs.usable_add_new isDir, fun _ => (new isDir).2⟩
    · rw [inoOld lt, old _ (t.ino_lt lt), Fs.usable_add lt]
      exact h.removed lt (kindOld lt ▸ dir)
  case listed =>
    intro j y there
    rw [find] at there
    rw [names]
    exact listed_set h.listed there

/-- `make_file` of both. -/
theorem makeFile (usable : t.Usable d) :
    Same Shows (t.makeEntry d c kind usable) (f.makeFile (t.ino d) c kind) := by
  unfold Fs.makeEntry DentCache.Fs.makeFile
  by_cases absent : t.child d c = none
  · rw [dif_pos absent, h.find_none usable absent]
    change Shows _ _
    refine h.add usable (fun lt same => absurd same (t.ino_lt lt).ne) ?_ rfl rfl ?_ ?_ ?_ ?_
    · rw [← h.next]
    · change f.next + 1 = max f.next (t.nextIno + 1)
      rw [h.next]
      omega
    · exact congrArg (update f.kind · kind) h.next
    · intro j lt
      exact update_of_ne (by rw [h.next]; exact lt.ne) ..
    · intro _
      refine ⟨le_rfl, ?_⟩
      change update f.removed f.next false t.nextIno = false
      rw [h.next, update_self]
  · obtain ⟨n, found⟩ := Option.ne_none_iff_exists'.mp absent
    rw [dif_neg absent, h.find_some usable found]
    rfl

/-- `link` of both, to an inode that is not a directory. -/
theorem link (usable : t.Usable d) (lt : n < t.next) (file : t.kind n ≠ .directory) :
    Same Shows (t.linkEntry d c n usable lt) (f.link (t.ino d) c (t.ino n)) := by
  unfold Fs.linkEntry DentCache.Fs.link
  by_cases absent : t.child d c = none
  · rw [dif_pos absent, h.find_none usable absent]
    change Shows _ _
    refine h.add usable (fun lt' same => t.ino_kind lt' lt same) rfl rfl rfl ?_ ?_ ?_ ?_
    · have := t.ino_lt lt
      change f.next = max f.next (t.ino n + 1)
      rw [h.next]
      omega
    · rw [← h.kind lt, update_eq_self]
      rfl
    · exact fun _ _ => rfl
    · exact fun dir => absurd dir file
  · obtain ⟨n, found⟩ := Option.ne_none_iff_exists'.mp absent
    rw [dif_neg absent, h.find_some usable found]
    rfl

/-- `rename` of both, from one name to another. -/
theorem rename (usable : t.Usable d) (usable' : t.Usable d') (other : d ≠ d' ∨ c ≠ c') :
    Same (fun t' r => Shows t' r.1) (t.moveEntry d c d' c' usable')
      (f.rename (t.ino d) c (t.ino d') c') := by
  unfold Fs.moveEntry DentCache.Fs.rename
  split
  · rename_i found
    rw [h.find_none usable found]
    rfl
  · rename_i n found
    have differ : ¬ (t.ino d = t.ino d' ∧ c = c') := by
      rw [h.ino_eq_iff usable' usable]
      tauto
    rw [h.find_some usable found]
    dsimp only
    rw [if_neg differ]
    by_cases absent : t.child d' c' = none
    · rw [dif_pos absent, h.find_none usable' absent]
      constructor
      case root => exact h.root
      case next => exact h.next
      case kind => exact h.kind
      case once => exact h.once
      case find =>
        intro x y now
        have was := (Fs.usable_move found).mp now
        change (if t.ino x = t.ino d' ∧ y = c' then some (t.ino n) else
          if t.ino x = t.ino d ∧ y = c then none else f.find (t.ino x) y) =
            (t.moveChild n d c d' c' x y).map t.ino
        simp only [h.ino_eq_iff usable' was, h.ino_eq_iff usable was]
        rw [h.find y was, Fs.moveChild, apply_ite (Option.map t.ino), apply_ite (Option.map t.ino)]
        rfl
      case fresh =>
        intro j y new
        have low := t.ino_lt usable'.lt
        change (if j = t.ino d' ∧ y = c' then some (t.ino n) else _) = none
        rw [if_neg (by change t.nextIno ≤ j at new; omega)]
        exact h.fresh_set usable new
      case removed =>
        intro x lt dir
        exact (h.removed lt dir).trans (Fs.usable_move found).symm
      case listed => exact listed_set (listed_set h.listed)
    · obtain ⟨m, taken⟩ := Option.ne_none_iff_exists'.mp absent
      rw [dif_neg absent, h.find_some usable' taken]
      rfl

/-- `rename` of both within a directory, where the names may be the same. -/
theorem rename_within (usable : t.Usable d) :
    Same (fun t' r => Shows t' r.1) (t.renameEntry d c c' usable)
      (f.rename (t.ino d) c (t.ino d) c') := by
  unfold Fs.renameEntry
  by_cases same : c = c'
  · subst same
    rw [if_pos rfl, DentCache.Fs.rename]
    cases found : t.child d c with
    | none =>
      rw [h.find_none usable found]
      rfl
    | some n =>
      rw [h.find_some usable found]
      dsimp only
      rw [if_pos ⟨rfl, rfl⟩]
      exact h
  · rw [if_neg same]
    exact h.rename usable usable (.inr same)

end Shows

/-- A filesystem with an empty root directory. -/
theorem shows_blank :
    Shows blank ⟨0, fun _ => .directory, fun _ _ => none, fun _ => false, 1, []⟩ where
  root := rfl
  next := rfl
  kind _ := rfl
  once := by
    intro n m hn hm _ _
    change n < 1 at hn
    change m < 1 at hm
    omega
  find _ _ := rfl
  fresh _ _ := rfl
  removed := by
    intro d lt _
    change d < 1 at lt
    obtain rfl : d = 0 := by omega
    exact ⟨fun _ => ⟨rfl, .inl rfl⟩, fun _ => rfl⟩
  listed there := absurd rfl there

end BadgerOS.Namespace
