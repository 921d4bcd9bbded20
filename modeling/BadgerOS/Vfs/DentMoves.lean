import BadgerOS.Vfs.CacheTruth

/-!
# Renames and the directory cache

A rename puts a new entry in the place of the old one. The entries below the old one
are not changed, so the cache stays truthful only if none of them is in use.
-/

namespace BadgerOS.DentCache

open Interleaving Function Option World
open BadgerOS.Path (Name Kind dot dotDot)

variable {w w' : World} {c d p : Nat} {n : Name}

/-! ### Renames -/

variable {old d' i x new : Nat} {y : Name} {noreplace : Bool} {fs : Fs} {event : Event}

namespace World

/-- The entry or one below it. -/
inductive Below (w : World) (old : Nat) : Nat → Prop
  | self : Below w old old
  | under {c p : Nat} (parent : w.parent c = some p) (h : Below w old p) : Below w old c

theorem mem_chain_of_below {fuel h : Nat} (ordered : w.Ordered) (below : w.Below old h)
    (enough : h < fuel) : old ∈ w.chain fuel h := by
  induction below generalizing fuel with
  | self =>
    obtain ⟨fuel, rfl⟩ : ∃ k, fuel = k + 1 := ⟨fuel - 1, by omega⟩
    exact .head _
  | under parent _ ih =>
    obtain ⟨fuel, rfl⟩ : ∃ k, fuel = k + 1 := ⟨fuel - 1, by omega⟩
    have less := ordered parent
    unfold chain
    rw [parent]
    exact .tail _ (ih (by omega))

theorem Below.le (ordered : w.Ordered) (below : w.Below old c) : old ≤ c := by
  induction below with
  | self => exact le_rfl
  | under parent _ ih =>
    have less := ordered parent
    omega

/-- `rename_check_loops` looks for the old directory, which is above the old entry. -/
theorem not_below_of_checkLoops (ordered : w.Ordered) (parent : w.parent old = some d)
    (checked : d ≠ d' → w.checkLoops d d' = .ok ()) : ¬ w.Below old d' := by
  intro below
  have less := ordered parent
  by_cases same : d = d'
  · have := below.le ordered
    omega
  have absent : d ∉ (w.chain (d' + 1) d').tail := by
    intro mem
    have ok := checked same
    unfold checkLoops at ok
    rw [if_pos mem] at ok
    cases ok
  apply absent
  unfold chain
  cases below with
  | self =>
    rw [parent]
    obtain ⟨fuel, rfl⟩ : ∃ k, old = k + 1 := ⟨old - 1, by omega⟩
    exact .head _
  | under here below =>
    have above := ordered here
    rw [here]
    exact parent_mem_chain ordered above (mem_chain_of_below ordered below above) parent

theorem Below.release (below : w.Below old c) : w.release.Below old c := by
  induction below with
  | self => exact .self
  | under parent _ ih => exact .under parent ih

/-- Something below an entry that is live without it has a live entry right below it. -/
theorem Below.child (below : w.Below old c) (live : w.Live c) (other : c ≠ old) :
    ∃ x, w.Live x ∧ w.parent x = some old := by
  induction below with
  | self => contradiction
  | @under c p parent _ ih =>
    by_cases here : p = old
    · subst here
      exact ⟨c, live, parent⟩
    · exact ih (live.above parent) here

end World

theorem moved_children : (w.moveCache old d d' n i).children x y = if x = d' ∧
    y = n then some w.next
      else if x = w.next then w.children old y
      else if x = d ∧ y = w.name old then none
      else w.children x y := by
  unfold moveCache
  rw [setChild_children]
  split
  · rfl
  dsimp only
  by_cases new : x = w.next
  · rw [if_pos new, new, update_self]
  · rw [if_neg new, update_of_ne new]
    change update (w.setChild d (w.name old) none).children w.next (fun _ => none) x y = _
    rw [update_of_ne new, setChild_children]

/-- The open directories after a move. -/
theorem moved_vdent {v : Nat} (d d' : Nat) (n : Name) (i : Nat)
    (has : (w.moveCache old d d' n i).vdent v = some c) :
    (w.upgradeVnode (w.vnode old) = some v ∧ (w.vdent v).isSome ∧ c = w.next) ∨
      (w.upgradeVnode (w.vnode old) ≠ some v ∧ w.vdent v = some c) := by
  dsimp only [moveCache, setChild] at has
  cases up : w.upgradeVnode (w.vnode old) with
  | none =>
    rw [up] at has
    exact .inr ⟨(some_ne_none v).symm, has⟩
  | some v' =>
    rw [up] at has
    dsimp only at has
    by_cases here : v = v'
    · subst here
      split at has
      · rename_i dent
        rw [update_self] at has
        exact .inl ⟨rfl, dent, (some.inj has).symm⟩
      · rename_i dent
        rw [has] at dent
        exact absurd rfl dent
    · right
      refine ⟨fun same => here (some.inj same).symm, ?_⟩
      split at has
      · rwa [update_of_ne here] at has
      · exact has

/-- What a rename of `old`, in the directory `d`, to the name `n` of the directory `d'` relies on.
-/
structure Movable (w : World) (old d d' : Nat) (n : Name) (fs : Fs) : Prop where
  live : w.Live old
  found : w.type old ≠ .negative
  listed : w.children d (w.name old) = some old
  live_new : w.Live d'
  dir_new : w.type d' = .directory
  not_below : ¬ w.Below old d'
  away : d' ≠ d ∨ n ≠ w.name old
  /-- What was at the new name is removed. -/
  change : w.fs.Change fs (w.ino d') n
  absent : fs.find (w.ino d') n = none
  kind : fs.kind = w.fs.kind
  childless {c : Nat} : w.release.Live c → w.parent c ≠ some old

namespace Movable

/-- The filesystem after the move. -/
def moved (w : World) (old d d' : Nat) (n : Name) (fs : Fs) : Fs :=
  (fs.set (w.ino d) (w.name old) none).set (w.ino d') n (some (w.ino old))

/-- The world after the call. -/
def after (w : World) (old d d' : Nat) (n : Name) (fs : Fs) : World :=
  ({ w with fs := moved w old d d' n fs }.moveCache old d d' n (w.ino old)).release

theorem after_children : (after w old d d' n fs).children x y = if x = d' ∧ y = n then some w.next
    else if x = w.next then w.children old y
    else if x = d ∧ y = w.name old then none
    else w.children x y :=
  moved_children (w := { w with fs := moved w old d d' n fs })

section

variable (m : Movable w old d d' n fs)
include m

theorem tidy (h : Cached w) :
    w.fs.find (w.ino d) (w.name old) = some (w.ino old) ∧
      fs.find (w.ino d) (w.name old) = some (w.ino old) ∧ (moved w old d d' n fs).Tidy := by
  obtain ⟨parent, -, agrees⟩ := h.entry m.listed m.live
  rw [agrees_iff m.found] at agrees
  have entry := agrees.1
  have still : fs.find (w.ino d) (w.name old) = some (w.ino old) := by
    rw [m.change.other, entry]
    apply h.apart m.live_new m.dir_new (m.live.above parent) (h.parent_dir m.live parent)
    rcases m.away with away | away
    · exact .inl away.symm
    · exact .inr away.symm
  refine ⟨entry, still, ?_⟩
  apply m.change.tidy.clear.set
  · rintro _ ⟨rfl⟩
    exact m.change.tidy.find_lt still
  · intro root
    rw [some.inj root] at still
    exact m.change.tidy.not_root still
  · rintro _ x y ⟨rfl⟩ dir
    constructor
    · by_contra removed
      rw [Bool.not_eq_false] at removed
      exact m.change.tidy.removed_absent removed dir still
    · intro _ found
      rcases Fs.set_find_cases found with ⟨-, -, new⟩ | ⟨away, found⟩
      · cases new
      · obtain ⟨rfl, rfl⟩ := m.change.tidy.once still found dir
        simp at away

theorem rename (h : Cached w) :
    fs.rename (w.ino d) (w.name old) (w.ino d') n = .ok (moved w old d d' n fs, w.ino old) := by
  obtain ⟨-, still, -⟩ := m.tidy h
  unfold Fs.rename
  rw [still]
  dsimp only
  rw [if_neg, m.absent]
  · rfl
  · rintro ⟨same, name⟩
    rw [same, name, m.absent] at still
    cases still

theorem find_other (first : x ≠ w.ino d ∨ y ≠ w.name old) (second : x ≠ w.ino d' ∨ y ≠ n) :
    (moved w old d d' n fs).find x y = w.fs.find x y := by
  rw [moved, Fs.set_find_of_ne second, Fs.set_find_of_ne first, m.change.other second]

/-- The old entry and what is below it are not live any more. -/
theorem live_moved {c : Nat} (inv : Inv w) (now : (after w old d d' n fs).Live c) :
    c = w.next ∨ (w.Live c ∧ ¬ w.Below old c ∧ w.type c = .directory) := by
  obtain ⟨parent, -, -⟩ := inv.cached.entry m.listed m.live
  apply now.mem
  · intro c holder
    rw [mem_holders] at holder
    rcases holder with rfl | ⟨v, file, dent⟩ | held
    · refine .inr ⟨w.live_root, fun below => ?_, inv.cached.root_type⟩
      have := below.le inv.cached.ordered
      obtain rfl : old = 0 := by omega
      rw [inv.cached.root_parent] at parent
      cases parent
    · rcases moved_vdent d d' n (w.ino old) dent with ⟨-, -, rfl⟩ | ⟨other, dent⟩
      · exact .inl rfl
      · have live : w.release.Live c := live_file file dent
        obtain ⟨dir, -, vnode⟩ := inv.vnodes.dent file dent
        refine .inr ⟨live_file file dent, fun below => ?_, dir⟩
        by_cases here : c = old
        · subst here
          apply other
          exact filter_eq_some_iff.mpr ⟨vnode, decide_eq_true (.inr file)⟩
        · obtain ⟨x, live, above⟩ := below.release.child live here
          exact m.childless live above
    · cases held
  · intro c p here above
    change update w.parent w.next (some d') c = some p at above
    rcases here with rfl | ⟨was, apart, -⟩
    · rw [update_self] at above
      cases above
      exact .inr ⟨m.live_new, m.not_below, m.dir_new⟩
    · rw [update_of_ne (inv.cached.lt was).ne] at above
      exact .inr ⟨was.above above, fun below => apart (.under above below),
        inv.cached.parent_dir was above⟩

/-- Names in the cache lead from directories to entries that there are. -/
theorem child_moved {c x : Nat} {y : Name} (inv : Inv w)
    (found : (after w old d d' n fs).children x y = some c) : x < w.next + 1 ∧ c < w.next + 1 ∧
      update w.type w.next (w.type old) x = .directory := by
  have d'_lt := inv.cached.lt m.live_new
  rw [after_children] at found
  split at found
  · rename_i here
    cases found
    rw [here.1, update_of_ne d'_lt.ne]
    exact ⟨by omega, by omega, m.dir_new⟩
  split at found
  · rename_i new
    obtain ⟨-, c_lt, dir⟩ := inv.cached.child found
    rw [new, update_self]
    exact ⟨Nat.lt_succ_self _, by omega, dir⟩
  split at found
  · cases found
  · obtain ⟨x_lt, c_lt, dir⟩ := inv.cached.child found
    rw [update_of_ne x_lt.ne]
    exact ⟨by omega, by omega, dir⟩

/-- A name that leads to an entry that was there is neither of the two that change. -/
theorem old_moved {c x : Nat} {y : Name} (inv : Inv w)
    (found : (after w old d d' n fs).children x y = some c)
    (now : (after w old d d' n fs).Live c) (was : w.Live c) : w.children x y = some c ∧
      (moved w old d d' n fs).find (w.ino x) y = w.fs.find (w.ino x) y := by
  obtain ⟨parent, -, -⟩ := inv.cached.entry m.listed m.live
  rw [after_children] at found
  split at found
  · cases found
    exact (inv.cached.lt was).false.elim
  rename_i second
  split at found
  · -- what is below the old entry is not live any more
    obtain ⟨above, -, -⟩ := inv.cached.entry found was
    rcases m.live_moved inv now with rfl | ⟨-, apart, -⟩
    · exact (inv.cached.lt was).false.elim
    · exact absurd (Below.under above .self) apart
  split at found
  · cases found
  · rename_i first
    obtain ⟨above, -, -⟩ := inv.cached.entry found was
    have live_x := was.above above
    have dir_x := inv.cached.parent_dir was above
    refine ⟨found, m.find_other ?_ ?_⟩
    · exact inv.cached.apart (m.live.above parent) (inv.cached.parent_dir m.live parent) live_x
        dir_x (Decidable.not_and_iff_or_not.mp first)
    · exact inv.cached.apart m.live_new m.dir_new live_x dir_x
        (Decidable.not_and_iff_or_not.mp second)

/-- An entry that was there keeps its name, or is the directory that was replaced. -/
theorem kept_moved {c p : Nat} (inv : Inv w) (now : (after w old d d' n fs).Live c)
    (was : w.Live c) (above : w.parent c = some p) (found : w.children p (w.name c) = some c) :
    (after w old d d' n fs).children p (w.name c) = some c ∨
      (w.type c = .directory ∧ (moved w old d d' n fs).removed (w.ino c) = true) := by
  rcases m.live_moved inv now with rfl | ⟨-, apart, dir⟩
  · exact (inv.cached.lt was).false.elim
  by_cases second : p = d' ∧ w.name c = n
  · -- the entry that was at the new name
    obtain ⟨rfl, rfl⟩ := second
    obtain ⟨-, -, agrees⟩ := inv.cached.entry found was
    rw [dir, agrees_dir] at agrees
    exact .inr ⟨dir, m.change.gone agrees.1 agrees.2⟩
  · left
    rw [after_children, if_neg second, if_neg (inv.cached.lt (was.above above)).ne, if_neg, found]
    rintro ⟨rfl, name⟩
    rw [name] at found
    cases m.listed.symm.trans found
    exact apart .self

/-- The new entry says of the inode what the old one said. -/
theorem agrees_moved (inv : Inv w) : Agrees (moved w old d d' n fs) (w.type old) (w.ino old)
    ((moved w old d d' n fs).find (w.ino d') n) := by
  obtain ⟨-, -, agrees⟩ := inv.cached.entry m.listed m.live
  rw [moved, Fs.set_find_self]
  rw [agrees_iff m.found] at agrees ⊢
  change _ ∧ typeOf (fs.kind (w.ino old)) = w.type old
  rw [m.kind]
  exact ⟨rfl, agrees.2⟩

omit m in
/-- Only the new name leads to the new entry. -/
theorem only_moved {x : Nat} {y : Name} (inv : Inv w)
    (found : (after w old d d' n fs).children x y = some w.next) : x = d' ∧ y = n := by
  rw [after_children] at found
  split at found
  · assumption
  split at found
  · exact absurd (inv.cached.child found).2.1 (Nat.lt_irrefl _)
  split at found
  · cases found
  · exact absurd (inv.cached.child found).2.1 (Nat.lt_irrefl _)

theorem cached_moved (inv : Inv w) : Cached (after w old d d' n fs) := by
  have live {c : Nat} (now : (after w old d d' n fs).Live c) := m.live_moved inv now
  apply inv.cached.update
  constructor
  case tidy => exact (m.tidy inv.cached).2.2
  case ordered => exact ordered_of_update inv.cached.ordered (inv.cached.lt m.live_new) rfl
  case root => exact m.change.root
  case fs_next => exact m.change.next_le
  case kind => exact m.change.kind
  case removed => exact m.change.removed
  case next_le => exact Nat.le_succ _
  case type | parent | name | ino => exact fun less => update_of_ne less.ne ..
  case live =>
    intro c now
    rcases live now with new | ⟨was, -, -⟩
    · exact .inr new
    · exact .inl was
  case child => exact m.child_moved inv
  case old => exact m.old_moved inv
  case kept => exact m.kept_moved inv
  case new =>
    intro _
    refine ⟨Nat.lt_succ_self _, d', update_self .., m.live_new, m.dir_new, ?_, ?_, ?_⟩
    · rw [after_children, if_pos ⟨rfl, update_self ..⟩]
    · change Agrees (moved w old d d' n fs) (update w.type w.next (w.type old) w.next)
        (update w.ino w.next (w.ino old) w.next)
        ((moved w old d d' n fs).find (w.ino d') (update w.name w.next n w.next))
      rw [update_self, update_self, update_self]
      exact m.agrees_moved inv
    · intro x y found
      change x = d' ∧ y = update w.name w.next n w.next
      rw [update_self]
      exact only_moved inv found
  case new_dir =>
    intro c _ dir now was was_dir
    change update w.type w.next (w.type old) w.next = _ at dir
    change w.ino c ≠ update w.ino w.next (w.ino old) w.next
    rw [update_self] at dir ⊢
    intro same
    obtain rfl := inv.cached.unique was m.live was_dir dir same
    rcases live now with rfl | ⟨-, apart, -⟩
    · exact (inv.cached.lt was).false.elim
    · exact apart .self

theorem vnodes_moved (inv : Inv w) : Vnodes (after w old d d' n fs) := by
  obtain ⟨entry, still, -⟩ := m.tidy inv.cached
  obtain ⟨less, kind⟩ := inv.cached.agrees m.live m.found
  -- the vnode that moves is not that of the root
  have not_root : w.upgradeVnode (w.vnode old) ≠ some 0 := by
    intro up
    have same := inv.vnodes.same (filter_eq_some_iff.mp up).1
    rw [inv.vnodes.root_vino] at same
    rw [← same] at entry
    exact inv.cached.tidy.not_root entry
  have vnode {c v : Nat} (has : (after w old d d' n fs).vnode c = some v) :
      (c = w.next ∧ w.upgradeVnode (w.vnode old) = some v) ∨
          (c ≠ w.next ∧ w.vnode c = some v) := by
    change update (update w.vnode w.next none) w.next _ c = some v at has
    by_cases new : c = w.next
    · rw [new, update_self] at has
      exact .inl ⟨new, has⟩
    · rw [update_of_ne new, update_of_ne new] at has
      exact .inr ⟨new, has⟩
  constructor
  case root_vino => exact inv.vnodes.root_vino.trans m.change.root.symm
  case vnext_pos => exact inv.vnodes.vnext_pos
  case file_lt =>
    intro v file
    obtain ⟨v_lt, ino_lt⟩ := inv.vnodes.file_lt file
    exact ⟨v_lt, ino_lt.trans_le m.change.next_le⟩
  case once => exact inv.vnodes.once
  case root_vdent =>
    change (w.moveCache old d d' n (w.ino old)).vdent 0 = some 0
    dsimp only [moveCache, setChild]
    cases up : w.upgradeVnode (w.vnode old) with
    | none => exact inv.vnodes.root_vdent
    | some v =>
      dsimp only
      split
      · rw [update_of_ne, inv.vnodes.root_vdent]
        rintro rfl
        exact not_root up
      · exact inv.vnodes.root_vdent
  case root_vnode =>
    change update (update w.vnode w.next none) w.next _ 0 = some 0
    rw [update_of_ne (inv.cached.lt w.live_root).ne,
      update_of_ne (inv.cached.lt w.live_root).ne, inv.vnodes.root_vnode]
  case vnode_lt =>
    intro c v has
    rcases vnode has with ⟨-, up⟩ | ⟨-, has⟩
    · exact inv.vnodes.vnode_lt (filter_eq_some_iff.mp up).1
    · exact inv.vnodes.vnode_lt has
  case same =>
    intro c v has
    change w.vino v = update w.ino w.next (w.ino old) c
    rcases vnode has with ⟨rfl, up⟩ | ⟨new, has⟩
    · rw [update_self]
      exact inv.vnodes.same (filter_eq_some_iff.mp up).1
    · rw [update_of_ne new]
      exact inv.vnodes.same has
  case dent =>
    intro c v file dent
    change update w.type w.next (w.type old) c = _ ∧ update w.ino w.next (w.ino old) c =
      w.vino v ∧ update (update w.vnode w.next none) w.next (w.upgradeVnode (w.vnode old)) c = _
    rcases moved_vdent d d' n (w.ino old) dent with ⟨up, has, rfl⟩ | ⟨-, has⟩
    · rw [update_self, update_self, update_self]
      have same := inv.vnodes.same (filter_eq_some_iff.mp up).1
      -- the vnode is of a directory, so the old entry is of one
      obtain ⟨x, has⟩ := isSome_iff_exists.mp has
      obtain ⟨dir, ino, -⟩ := inv.vnodes.dent file has
      obtain ⟨dir_x, -⟩ := inv.cached.dir (live_file file has) dir
      rw [ino, same] at dir_x
      rw [dir_x] at kind
      exact ⟨kind.symm, same.symm, up⟩
    · have c_lt := inv.cached.lt (live_file file has)
      rw [update_of_ne c_lt.ne, update_of_ne c_lt.ne, update_of_ne c_lt.ne, update_of_ne c_lt.ne]
      exact inv.vnodes.dent file has

end

end Movable

/-- When the cache stays truthful: a rename makes a new name, or takes another name of its
directory, and
nothing in use is right below what it moves. -/
def Calm (w : World) : Event → Prop
  | .rename old new _ =>
    (w.type new = .negative ∨ (w.parent new = w.parent old ∧ w.name new ≠ w.name old)) ∧
      ∀ c, w.release.Live c → w.parent c ≠ some old
  | _ => True

theorem checkForEntry_ok (ordered : w.Ordered) (ok : w.checkForEntry d c = .ok ()) :
    w.children d (w.name c) = some c := by
  unfold checkForEntry at ok
  split at ok
  · exact ((upgrade_eq_some ordered).mp ‹_›).1
  · cases ok

theorem clearTarget_ok (ok : w.clearTarget d d' new noreplace = .ok fs) :
    (w.type new = .negative ∧ w.checkForEntry d' new = .ok () ∧ fs = w.fs) ∨
      (w.type new ≠ .negative ∧ w.fs.unlink (w.ino d) (w.name new) .any = .ok fs) := by
  unfold clearTarget at ok
  split at ok
  · cases checked : w.checkForEntry d' new with
    | error => rw [checked] at ok; cases ok
    | ok =>
      rw [checked] at ok
      cases ok
      exact .inl ⟨‹_›, rfl, rfl⟩
  · split at ok
    · cases ok
    · exact .inr ⟨‹_›, ok⟩

/-- What is there for a rename to do. -/
theorem Inv.movable (inv : Inv w) (held : old ∈ w.held) (held' : new ∈ w.held)
    (calm : Calm w (.rename old new noreplace)) (found : w.type old ≠ .negative)
    (parent : w.parent old = some d) (parent' : w.parent new = some d')
    (listed : w.checkForEntry d old = .ok ()) (checked : d ≠ d' → w.checkLoops d d' = .ok ())
    (target : (w.type new = .negative ∧ w.checkForEntry d' new = .ok () ∧ fs = w.fs) ∨
      (w.type new ≠ .negative ∧ w.fs.unlink (w.ino d) (w.name new) .any = .ok fs)) :
    Movable w old d d' (w.name new) fs := by
  obtain ⟨live_new, dir_new⟩ := inv.above held' parent'
  have here := checkForEntry_ok inv.cached.ordered listed
  have below := not_below_of_checkLoops inv.cached.ordered parent checked
  obtain ⟨place, childless⟩ := calm
  obtain ⟨away, change, absent, kind⟩ : (d' ≠ d ∨ w.name new ≠ w.name old) ∧
      w.fs.Change fs (w.ino d') (w.name new) ∧ fs.find (w.ino d') (w.name new) = none ∧
          fs.kind = w.fs.kind := by
    rcases target with ⟨negative, there, rfl⟩ | ⟨positive, unlinked⟩
    · have there := checkForEntry_ok inv.cached.ordered there
      obtain ⟨-, -, absent⟩ := inv.cached.entry there (live_held held')
      rw [negative] at absent
      refine ⟨Decidable.not_and_iff_or_not.mp ?_, ?_, absent, rfl⟩
      · rintro ⟨rfl, name⟩
        rw [name, here] at there
        cases there
        exact found negative
      · constructor
        case tidy => exact inv.cached.tidy
        case root => rfl
        case next_le => exact le_rfl
        case kind | other => exact fun _ => rfl
        case removed => exact fun _ removed => removed
        case gone => exact fun present => nomatch absent.symm.trans present
    · rcases place with negative | ⟨same, name⟩
      · exact absurd negative positive
      rw [parent, parent'] at same
      obtain rfl : d' = d := some.inj same
      exact ⟨.inr name, inv.cached.tidy.unlink unlinked⟩
  constructor
  case live => exact live_held held
  case found | live_new | dir_new | away | change | absent | kind => assumption
  case listed => exact here
  case not_below => exact below
  case childless => exact fun live => childless _ live

/-- The world that a rename leaves. -/
def left (r : Except (Errno × World) World) : World :=
  match r with
  | .ok w' => w'
  | .error (_, w') => w'

theorem Inv.rename (inv : Inv w) (held : old ∈ w.held)
    (held' : new ∈ w.held) (calm : Calm w (.rename old new noreplace)) :
    Inv (left (w.rename old new noreplace)).release := by
  unfold World.rename
  split
  · exact inv.release
  rename_i found
  split
  case h_2 => exact inv.release
  rename_i d d' parent parent'
  cases listed : w.checkForEntry d old with
  | error => exact inv.release
  | ok =>
  dsimp only [Except.mapError, bind, Except.bind]
  split
  · exact inv.release
  cases loops : (if d ≠ d' then w.checkLoops d d' else .ok ()) with
  | error => exact inv.release
  | ok =>
  have checked (apart : d ≠ d') : w.checkLoops d d' = .ok () := by
    rwa [if_pos apart] at loops
  cases target : w.clearTarget d d' new noreplace with
  | error => exact inv.release
  | ok fs =>
    have m :=
      inv.movable held held' calm found parent parent' listed checked (clearTarget_ok target)
    dsimp only
    rw [m.rename inv.cached]
    exact ⟨m.cached_moved inv, m.vnodes_moved inv⟩

/-! ### Runs -/

theorem step_inv (calm : Calm w event) (inv : Inv w) (run : step event w = some w') : Inv w' := by
  cases event with
  | enter file =>
    cases file with
    | none =>
      cases run
      exact inv.hold w.live_root
    | some v =>
      change (if v ∈ w.files then (w.vdent v).map w.hold else none) = some w' at run
      split at run
      · obtain ⟨c, dent, rfl⟩ := map_eq_some_iff.mp run
        exact inv.hold (live_file ‹_› dent)
      · cases run
  | lookup d component =>
    change (if d ∈ w.held then (w.lookupImpl d component).toOption else none) = some w' at run
    split at run
    · cases found : w.lookupImpl d component with
      | error => rw [found] at run; cases run
      | ok w₁ =>
        rw [found] at run
        cases run
        exact inv.lookup ‹_› found
    · cases run
  | drop c =>
    cases run
    exact inv.keep (fun _ mem => mem) fun _ mem => live_held (List.mem_of_mem_erase mem)
  | close v =>
    cases run
    exact inv.keep (fun _ mem => List.mem_of_mem_erase mem) fun _ => live_held
  | openFile c create exclusive =>
    change (if c ∈ w.held then some (commit w (w.openFile c create exclusive)) else none) =
      some w' at run
    split at run
    · cases run
      exact inv.commit (inv.openFile ‹_›)
    · cases run
  | makeFile c kind =>
    change (if c ∈ w.held then some (commit w (w.makeFile c kind)) else none) = some w' at run
    split at run
    · cases run
      exact inv.commit (inv.makeFile ‹_›)
    · cases run
  | link old new =>
    change (if old ∈ w.held ∧ new ∈ w.held then some (commit w (w.link old new)) else none) =
      some w' at run
    split at run
    · rename_i held
      cases run
      exact inv.commit (inv.link held.1)
    · cases run
  | unlink c isRmdir =>
    change (if c ∈ w.held then some (commit w (w.unlink c isRmdir)) else none) = some w' at run
    split at run
    · cases run
      exact inv.commit (inv.unlink ‹_›)
    · cases run
  | rename old new noreplace =>
    unfold step at run
    dsimp only at run
    split at run
    · rename_i held
      have kept := inv.rename held.1 held.2 calm
      split at run <;> rename_i result
      all_goals
        cases run
        rwa [result] at kept
    · cases run

theorem mounted_inv (tidy : fs.Tidy) : Inv (mounted fs) := by
  have root {c : Nat} (live : (mounted fs).Live c) : c = 0 := by
    apply live.mem
    · intro c holder
      rcases mem_holders.mp holder with rfl | ⟨v, file, -⟩ | held
      · rfl
      · cases file
      · cases held
    · intro c p _ parent
      cases parent
  constructor
  · constructor
    case tidy => exact tidy
    case ordered => exact fun parent => nomatch parent
    case root_parent | root_type | root_ino => rfl
    case lt => exact fun live => (root live).symm ▸ Nat.zero_lt_one
    case child | entry => exact fun found => nomatch found
    case parent_dir => exact fun _ parent => nomatch parent
    case attached => exact fun live other => absurd (root live) other
    case dir => exact fun _ _ => ⟨tidy.root_dir, tidy.root_lt⟩
    case unique => exact fun live live' _ _ _ => (root live).trans (root live').symm
  · constructor
    case root_vino | root_vdent | root_vnode => rfl
    case vnext_pos => exact Nat.zero_lt_one
    case file_lt | dent => exact fun file => nomatch file
    case vnode_lt =>
      intro c v has
      cases has
      exact Nat.zero_lt_one
    case same => exact fun _ => rfl
    case once =>
      intro v v' mem mem' _
      rw [List.mem_singleton.mp mem, List.mem_singleton.mp mem']

/-- In every run of calls, each of them calm, what is reached through the cache is what the
filesystem has. -/
theorem cache_truthful {fs : Fs} (tidy : fs.Tidy) (reached : Reaches step Calm (mounted fs) w) :
    w.Truthful := by
  have inv : Inv w := reached.invariant (mounted_inv tidy) step_inv
  exact inv.truthful

/-- A test for `Calm`: a new name for a directory of the root that is alone in use. -/
def calmly (w : World) : Event → Bool
  | .rename old new _ => w.type new = .negative ∧ w.parent 0 = none ∧ w.parent old = some 0 ∧
    old ≠ 0 ∧
    ∀ v ∈ w.files, w.vdent v = none ∨ w.vdent v = some 0 ∨ w.vdent v = some old
  | _ => true

theorem calm_of_calmly (test : calmly w event = true) : Calm w event := by
  cases event with
  | rename old new noreplace =>
    obtain ⟨negative, root, parent, other, files⟩ := of_decide_eq_true test
    refine ⟨.inl negative, fun c live above => ?_⟩
    have here : c = 0 ∨ c = old := by
      apply live.mem
      · intro c holder
        rcases mem_holders.mp holder with rfl | ⟨v, file, dent⟩ | held
        · exact .inl rfl
        · rcases files v file with h | h | h
          · cases dent.symm.trans h
          · exact .inl (some.inj (dent.symm.trans h))
          · exact .inr (some.inj (dent.symm.trans h))
        · cases held
      · rintro c p (rfl | rfl) up
        · cases root.symm.trans up
        · exact .inl (some.inj (parent.symm.trans up)).symm
    rcases here with rfl | rfl
    · cases root.symm.trans above
    · exact other (some.inj (parent.symm.trans above)).symm
  | _ => trivial

/-- The directories `a` and `a/b`. -/
def nested : Fs where
  root := 0
  kind _ := .directory
  find d c := if d = 0 ∧ c = [97] then some 1 else if d = 1 ∧ c = [98] then some 2 else none
  removed _ := false
  next := 3
  names := [(0, [97]), (1, [98])]

theorem nested_find {d : Nat} {c : Name} (found : nested.find d c = some i) :
    (d = 0 ∧ c = [97] ∧ i = 1) ∨ (d = 1 ∧ c = [98] ∧ i = 2) := by
  change (if d = 0 ∧ c = [97] then some 1 else if d = 1 ∧ c = [98] then some 2 else none) =
    some i at found
  split at found
  · cases found
    exact .inl ⟨‹_ ∧ _›.1, ‹_ ∧ _›.2, rfl⟩
  split at found
  · cases found
    exact .inr ⟨‹_ ∧ _›.1, ‹_ ∧ _›.2, rfl⟩
  · cases found

theorem nested_tidy : nested.Tidy where
  root_dir := rfl
  root_lt := by decide
  not_root found := by
    rcases nested_find found with ⟨-, -, root⟩ | ⟨-, -, root⟩ <;> cases root
  find_lt found := by
    rcases nested_find found with ⟨-, -, rfl⟩ | ⟨-, -, rfl⟩ <;> decide
  once found found' _ := by
    rcases nested_find found with ⟨rfl, rfl, rfl⟩ | ⟨rfl, rfl, rfl⟩ <;>
      rcases nested_find found' with ⟨rfl, rfl, same⟩ | ⟨rfl, rfl, same⟩
        <;> simp at same ⊢
  removed_absent removed := nomatch removed

/-- The directory `a` is open while it becomes `c`, and `c/b` is looked up. -/
theorem cache_truthful_open_dir : ∃ w, Reaches step Calm (mounted nested) w ∧
    w.children 0 [99] = some 3 ∧ w.children 3 [98] = some 4 ∧ w.files = [1] ∧ w.Truthful := by
  obtain ⟨w, reached, first, second, files⟩ : ∃ w,
    Reaches step (fun w event => calmly w event = true)
      (mounted nested) w ∧ w.children 0 [99] = some 3 ∧ w.children 3 [98] = some 4 ∧
          w.files = [1] :=
    exists_of_run [.enter none, .lookup 0 [97], .openFile 1 false false, .enter none,
      .lookup 0 [97],
      .lookup 0 [99], .rename 1 2 false, .enter none, .lookup 0 [99],
        .lookup 3 [98]] (by decide +kernel)
  have reached := reached.mono calm_of_calmly
  exact ⟨w, reached, first, second, files, cache_truthful nested_tidy reached⟩

/-- The directories `a` and `a/b` are open when `a` becomes `c`. Then `c/b` is the entry of before,
and the
entries above it spell `a/b`, which there is no more. -/
theorem not_cache_truthful : ∃ w, Reaches step (fun _ _ => True) (mounted nested) w ∧
    w.ReachedBy [[99], [98]] 2 ∧ w.realpath 3 2 = [[97], [98]] ∧ w.fs.at [[97]] = none ∧
      ¬ w.Truthful := by
  obtain ⟨w, run, ⟨first, second⟩, ⟨files, dent, dent'⟩, spelled, absent⟩ : ∃ w,
      Reaches step (fun _ _ => True) (mounted nested) w ∧
      (w.children 0 [99] = some 4 ∧ w.children 4 [98] = some 2) ∧
      (w.files = [2, 1] ∧ w.vdent 1 = some 4 ∧ w.vdent 2 = some 2) ∧
      w.realpath 3 2 = [[97], [98]] ∧ w.fs.at [[97]] = none :=
    exists_of_run [.enter none, .lookup 0 [97], .openFile 1 false false, .enter none,
      .lookup 0 [97], .lookup 1 [98],
      .openFile 2 false false, .enter none, .lookup 0 [97], .lookup 0 [99],
        .rename 1 3 false] (by decide +kernel)
  have live := live_file (by simp [files]) dent
  have live' := live_file (by simp [files]) dent'
  have reached := (World.ReachedBy.root.child first live).child second live'
  refine ⟨w, run, reached, spelled, absent, fun truthful => ?_⟩
  have spells := (truthful _ _ reached).2
  rw [spelled] at spells
  cases spells

end BadgerOS.DentCache
