import BadgerOS.Vfs.DentCache

/-!
# The directory cache tells the truth

Every live entry that is reached through the cache is what the filesystem has at
that path, and the entries above it spell the path. A rename replaces the entry of a
directory, so entries that live below it keep the old one, which is why the renames
need a condition.
-/

namespace BadgerOS.DentCache

open Interleaving Function List Nat World
open BadgerOS.Path (Name Kind dot dotDot)

variable {w w' : World} {c d p v : Nat} {n : Name}

/-! ### Live entries -/

variable {S : Nat → Prop} {fuel h i x : Nat} {fs : Fs} {entry : Option Nat} {y : Name}
  {kind : Kind} {exclusive : Bool}

namespace World

/-- An entry that something holds, or one above a live entry. -/
inductive Live (w : World) : Nat → Prop
  | holder {c : Nat} (h : c ∈ w.holders) : Live w c
  | above {c p : Nat} (h : Live w c) (parent : w.parent c = some p) : Live w p

/-- Live entries are in every set that has the holders and what is above. -/
theorem Live.mem (h : w.Live c) (holders : ∀ c ∈ w.holders, S c)
    (above : ∀ {c p}, S c → w.parent c = some p → S p) : S c := by
  induction h with
  | holder h => exact holders _ h
  | above _ parent ih => exact above ih parent

/-- Entries above come before those below. -/
def Ordered (w : World) : Prop := ∀ {c p}, w.parent c = some p → p < c

theorem live_of_mem_chain (live : w.Live h) (mem : c ∈ w.chain fuel h) : w.Live c := by
  induction fuel generalizing h with
  | zero => cases mem
  | succ fuel ih =>
    cases mem with
    | head => exact live
    | tail _ mem =>
      split at mem
      · cases mem
      · rename_i p parent
        exact ih (live.above parent) mem

theorem parent_mem_chain (ordered : w.Ordered) (enough : h < fuel) (mem : c ∈ w.chain fuel h)
    (parent : w.parent c = some p) : p ∈ w.chain fuel h := by
  induction fuel generalizing h with
  | zero => cases mem
  | succ fuel ih =>
    apply mem_cons_of_mem
    cases mem with
    | head =>
      have less := ordered parent
      rw [parent]
      obtain ⟨fuel, rfl⟩ : ∃ k, fuel = k + 1 := ⟨fuel - 1, by omega⟩
      exact .head _
    | tail _ mem =>
      split at mem
      · cases mem
      · rename_i q hq
        have less := ordered hq
        exact ih (by omega) mem

theorem live_iff (ordered : w.Ordered) : w.live c = true ↔ w.Live c := by
  unfold live
  rw [decide_eq_true_iff]
  constructor
  · rintro ⟨h, holder, mem⟩
    exact live_of_mem_chain (.holder holder) mem
  · intro live
    induction live with
    | holder h => exact ⟨_, h, .head _⟩
    | above _ parent ih =>
      obtain ⟨h, holder, mem⟩ := ih
      exact ⟨h, holder, parent_mem_chain ordered (lt_succ_self h) mem parent⟩

theorem upgrade_eq_some (ordered : w.Ordered) {weak : Option Nat} :
    w.upgrade weak = some c ↔ weak = some c ∧ w.Live c := by
  rw [upgrade, Option.filter_eq_some_iff, live_iff ordered]

/-! ### What the cache should say -/

/-- Reached from the root through the children. -/
inductive ReachedBy (w : World) : List Name → Nat → Prop
  | root : ReachedBy w [] 0
  | child {names : List Name} {p c : Nat} {n : Name} (above : ReachedBy w names p)
      (found : w.children p n = some c) (live : w.Live c) : ReachedBy w (names ++ [n]) c

/-- `DentCache::realpath`: the names of the entry and of those above it. -/
def realpath (w : World) : Nat → Nat → List Name
  | 0, _ => []
  | fuel + 1, c => match w.parent c with
    | none => []
    | some p => realpath w fuel p ++ [w.name c]

end World

/-- The inode at a path. -/
def Fs.at (fs : Fs) (names : List Name) : Option Nat :=
  names.foldl (fun i n => i.bind (fs.find · n)) (some fs.root)

/-- An entry of the cache says what the filesystem has. -/
def Agrees (fs : Fs) (type : CacheType) (ino : Nat) (entry : Option Nat) : Prop :=
  match type with
  | .negative => entry = none
  | type => entry = some ino ∧ typeOf (fs.kind ino) = type

def World.Truthful (w : World) : Prop :=
  ∀ names c, w.ReachedBy names c → Agrees w.fs (w.type c) (w.ino c) (w.fs.at names) ∧
    w.realpath (c + 1) c = names

/-- A tree of directories. -/
structure Fs.Tidy (fs : Fs) : Prop where
  root_dir : fs.kind fs.root = .directory
  root_lt : fs.root < fs.next
  not_root {d : Nat} {c : Name} : fs.find d c ≠ some fs.root
  find_lt {d i : Nat} {c : Name} : fs.find d c = some i → i < fs.next
  /-- A directory has one name. -/
  once {d d' i : Nat} {c c' : Name} : fs.find d c = some i → fs.find d' c' = some i →
    fs.kind i = .directory → d' = d ∧ c' = c
  removed_absent {d i : Nat} {c : Name} : fs.removed i = true → fs.kind i = .directory →
    fs.find d c ≠ some i

variable {type : CacheType}

theorem agrees_iff (found : type ≠ .negative) :
    Agrees fs type i entry ↔ entry = some i ∧ typeOf (fs.kind i) = type := by
  unfold Agrees
  split
  · contradiction
  · rfl

theorem agrees_dir : Agrees fs .directory i entry ↔ entry = some i ∧
    fs.kind i = .directory := by
  rw [agrees_iff CacheType.noConfusion]
  cases fs.kind i <;> simp [typeOf]

/-- What is cached. -/
structure Cached (w : World) : Prop where
  tidy : w.fs.Tidy
  ordered : w.Ordered
  root_parent : w.parent 0 = none
  root_type : w.type 0 = .directory
  root_ino : w.ino 0 = w.fs.root
  lt {c : Nat} : w.Live c → c < w.next
  child {c d : Nat} {n : Name} : w.children d n = some c → d < w.next ∧ c < w.next ∧
    w.type d = .directory
  parent_dir {c p : Nat} : w.Live c → w.parent c = some p → w.type p = .directory
  entry {c d : Nat} {n : Name} : w.children d n = some c → w.Live c → w.parent c = some d ∧
    w.name c = n ∧ Agrees w.fs (w.type c) (w.ino c) (w.fs.find (w.ino d) n)
  /-- An entry is in its directory, or it is of a directory that was removed. -/
  attached {c : Nat} : w.Live c → c ≠ 0 → (∃ p, w.parent c = some p ∧
    w.children p (w.name c) = some c) ∨ (w.type c = .directory ∧ w.fs.removed (w.ino c) = true)
  dir {c : Nat} : w.Live c → w.type c = .directory → w.fs.kind (w.ino c) = .directory ∧
    w.ino c < w.fs.next
  /-- A directory has one live entry. -/
  unique {c c' : Nat} : w.Live c → w.Live c' → w.type c = .directory →
    w.type c' = .directory → w.ino c = w.ino c' → c = c'

/-- The vnodes of the open files. -/
structure Vnodes (w : World) : Prop where
  root_vino : w.vino 0 = w.fs.root
  root_vdent : w.vdent 0 = some 0
  root_vnode : w.vnode 0 = some 0
  vnext_pos : 0 < w.vnext
  file_lt {v : Nat} : v ∈ w.files → v < w.vnext ∧ w.vino v < w.fs.next
  vnode_lt {c v : Nat} : w.vnode c = some v → v < w.vnext
  same {c v : Nat} : w.vnode c = some v → w.vino v = w.ino c
  dent {c v : Nat} : v ∈ w.files → w.vdent v = some c →
    w.type c = .directory ∧ w.ino c = w.vino v ∧ w.vnode c = some v
  once {v v' : Nat} : v ∈ 0 :: w.files → v' ∈ 0 :: w.files → w.vino v = w.vino v' → v = v'

structure Inv (w : World) : Prop where
  cached : Cached w
  vnodes : Vnodes w

/-! ### The cache is truthful -/

theorem Fs.at_append (fs : Fs) (names : List Name) (n : Name) :
    fs.at (names ++ [n]) = (fs.at names).bind (fs.find · n) := by
  rw [Fs.at, foldl_append]
  rfl

theorem realpath_of_parent (ordered : w.Ordered) (parent : w.parent c = some p) :
    w.realpath (c + 1) c = w.realpath (p + 1) p ++ [w.name c] := by
  -- the fuel does not matter as long as there is enough
  have enough : ∀ {fuel fuel' x : Nat}, x < fuel → x < fuel' →
      w.realpath fuel x = w.realpath fuel' x := by
    intro fuel
    induction fuel with
    | zero =>
      omega
    | succ fuel ih =>
      intro fuel' x less less'
      obtain ⟨fuel', rfl⟩ : ∃ k, fuel' = k + 1 := ⟨fuel' - 1, by omega⟩
      unfold realpath
      cases hq : w.parent x with
      | none => rfl
      | some q =>
        have above := ordered hq
        dsimp only
        rw [ih (show q < fuel by omega) (show q < fuel' by omega)]
  have less := ordered parent
  rw [realpath, parent]
  dsimp only
  rw [enough less (lt_succ_self p)]

theorem Inv.truthful (inv : Inv w) : w.Truthful := by
  intro names c reached
  induction reached with
  | root =>
    rw [realpath, inv.cached.root_parent, inv.cached.root_type, inv.cached.root_ino, agrees_dir]
    exact ⟨⟨rfl, inv.cached.tidy.root_dir⟩, rfl⟩
  | child _ found live ih =>
    obtain ⟨parent, name, agrees⟩ := inv.cached.entry found live
    obtain ⟨above, spelled⟩ := ih
    obtain ⟨-, -, dir⟩ := inv.cached.child found
    rw [dir] at above
    constructor
    · rw [Fs.at_append, above.1]
      exact agrees
    · rw [realpath_of_parent inv.cached.ordered parent, spelled, name]

/-! ### What is live -/

namespace World

theorem live_root (w : World) : w.Live 0 := .holder (by simp [holders])

theorem live_held (mem : c ∈ w.held) : w.Live c := .holder (by simp [holders, mem])

/-- The entries of the open directories are live. -/
theorem live_file {v : Nat} (mem : v ∈ w.files) (dent : w.vdent v = some c) : w.Live c := by
  apply Live.holder
  simp only [holders, cons_append, mem_cons, mem_append, mem_filterMap]
  exact .inr (.inl ⟨v, mem, dent⟩)

theorem mem_holders : c ∈ w.holders ↔ c = 0 ∨ (∃ v ∈ w.files, w.vdent v = some c) ∨
    c ∈ w.held := by
  simp [holders]

theorem forall_holders (root : S 0) (files : ∀ v ∈ w.files, ∀ c, w.vdent v = some c → S c)
    (held : ∀ c ∈ w.held, S c) : ∀ c ∈ w.holders, S c := by
  intro c holder
  rcases mem_holders.mp holder with rfl | ⟨v, file, dent⟩ | here
  · exact root
  · exact files v file c dent
  · exact held c here

/-- Fewer holders, and the entries above are the same. -/
theorem Live.of_same (h : w'.Live c) (less : ∀ c ∈ w'.holders, w.Live c)
    (same : ∀ {c}, w.Live c → w'.parent c = w.parent c) : w.Live c :=
  h.mem less fun live parent => live.above (same live ▸ parent)

theorem Live.of_release (h : w.release.Live c) : w.Live c := by
  refine h.of_same ?_ fun _ => rfl
  exact forall_holders w.live_root (fun _ file _ dent => live_file file dent) nofun

end World

/-- Between two calls only directories live. -/
theorem Inv.dir_of_release (inv : Inv w) (h : w.release.Live c) : w.type c = .directory := by
  have both : w.Live c ∧ w.type c = .directory := by
    apply h.mem
    · exact forall_holders ⟨w.live_root, inv.cached.root_type⟩
        (fun _ file _ dent => ⟨live_file file dent, (inv.vnodes.dent file dent).1⟩) nofun
    · intro c p above parent
      exact ⟨above.1.above parent, inv.cached.parent_dir above.1 parent⟩
  exact both.2

/-! ### Changes of the cache -/

/-- A change of the cache: only a new entry may differ. -/
structure Update (w w' : World) : Prop where
  tidy : w'.fs.Tidy
  ordered : w'.Ordered
  root : w'.fs.root = w.fs.root
  fs_next : w.fs.next ≤ w'.fs.next
  kind {i : Nat} : i < w.fs.next → w'.fs.kind i = w.fs.kind i
  removed {i : Nat} : i < w.fs.next → w.fs.removed i = true → w'.fs.removed i = true
  next_le : w.next ≤ w'.next
  type {c : Nat} : c < w.next → w'.type c = w.type c
  parent {c : Nat} : c < w.next → w'.parent c = w.parent c
  name {c : Nat} : c < w.next → w'.name c = w.name c
  ino {c : Nat} : c < w.next → w'.ino c = w.ino c
  live {c : Nat} : w'.Live c → w.Live c ∨ c = w.next
  child {c x : Nat} {n : Name} : w'.children x n = some c → x < w'.next ∧ c < w'.next ∧
    w'.type x = .directory
  /-- What is found of the entries that were there. -/
  old {c x : Nat} {n : Name} : w'.children x n = some c → w'.Live c → w.Live c →
    w.children x n = some c ∧ w'.fs.find (w.ino x) n = w.fs.find (w.ino x) n
  kept {c p : Nat} : w'.Live c → w.Live c → w.parent c = some p →
    w.children p (w.name c) = some c →
    w'.children p (w.name c) = some c ∨ (w.type c = .directory ∧ w'.fs.removed (w.ino c) = true)
  new : w'.Live w.next → w.next < w'.next ∧ ∃ q, w'.parent w.next = some q ∧ w.Live q ∧
    w.type q = .directory ∧ w'.children q (w'.name w.next) = some w.next ∧
    Agrees w'.fs (w'.type w.next) (w'.ino w.next) (w'.fs.find (w.ino q) (w'.name w.next)) ∧
    ∀ x n, w'.children x n = some w.next → x = q ∧ n = w'.name w.next
  new_dir {c : Nat} : w'.Live w.next → w'.type w.next = .directory → w'.Live c → w.Live c →
    w.type c = .directory → w.ino c ≠ w'.ino w.next

/-- What a live entry says is about an inode that there is. -/
theorem Cached.agrees (h : Cached w) (live : w.Live c) (found : w.type c ≠ .negative) :
    w.ino c < w.fs.next ∧ typeOf (w.fs.kind (w.ino c)) = w.type c := by
  by_cases root : c = 0
  · subst root
    rw [h.root_type, h.root_ino, h.tidy.root_dir]
    exact ⟨h.tidy.root_lt, rfl⟩
  rcases h.attached live root with ⟨p, parent, listed⟩ | ⟨dir, -⟩
  · obtain ⟨-, -, agrees⟩ := h.entry listed live
    rw [agrees_iff found] at agrees
    exact ⟨h.tidy.find_lt agrees.1, agrees.2⟩
  · obtain ⟨kind, less⟩ := h.dir live dir
    rw [dir, kind]
    exact ⟨less, rfl⟩

theorem Cached.update (h : Cached w) (u : Update w w') : Cached w' := by
  have root_lt := h.lt w.live_root
  -- a live entry is an old one or the new one
  constructor
  case tidy => exact u.tidy
  case ordered => exact u.ordered
  case root_parent => exact (u.parent root_lt).trans h.root_parent
  case root_type => exact (u.type root_lt).trans h.root_type
  case root_ino => rw [u.ino root_lt, h.root_ino, u.root]
  case child => exact u.child
  case lt =>
    intro c live
    rcases u.live live with was | rfl
    · have := h.lt was
      have := u.next_le
      omega
    · exact (u.new live).1
  case parent_dir =>
    intro c p live parent
    rcases u.live live with was | rfl
    · rw [u.parent (h.lt was)] at parent
      rw [u.type (h.lt (was.above parent))]
      exact h.parent_dir was parent
    · obtain ⟨-, q, above, was, dir, -⟩ := u.new live
      cases above.symm.trans parent
      rwa [u.type (h.lt was)]
  case entry =>
    intro c d n found live
    rcases u.live live with was | rfl
    · obtain ⟨before, same⟩ := u.old found live was
      obtain ⟨parent, name, agrees⟩ := h.entry before was
      rw [u.parent (h.lt was), u.name (h.lt was), u.type (h.lt was), u.ino (h.lt was),
        u.ino (h.lt (was.above parent)), same]
      refine ⟨parent, name, ?_⟩
      by_cases negative : w.type c = .negative
      · rw [negative] at agrees ⊢
        exact agrees
      · have less := (h.agrees was negative).1
        rw [agrees_iff negative] at agrees ⊢
        rwa [u.kind less]
    · obtain ⟨-, q, above, was, -, -, agrees, only⟩ := u.new live
      obtain ⟨rfl, rfl⟩ := only _ _ found
      rw [u.ino (h.lt was)]
      exact ⟨above, rfl, agrees⟩
  case attached =>
    intro c live other
    rcases u.live live with was | rfl
    · rw [u.parent (h.lt was), u.name (h.lt was), u.type (h.lt was), u.ino (h.lt was)]
      rcases h.attached was other with ⟨p, parent, found⟩ | ⟨dir, removed⟩
      · rcases u.kept live was parent found with kept | gone
        · exact .inl ⟨p, parent, kept⟩
        · exact .inr gone
      · exact .inr ⟨dir, u.removed (h.dir was dir).2 removed⟩
    · obtain ⟨-, q, above, -, -, found, -⟩ := u.new live
      exact .inl ⟨q, above, found⟩
  case dir =>
    intro c live dir
    rcases u.live live with was | rfl
    · rw [u.type (h.lt was)] at dir
      obtain ⟨kind, less⟩ := h.dir was dir
      rw [u.ino (h.lt was), u.kind less]
      exact ⟨kind, lt_of_lt_of_le less u.fs_next⟩
    · obtain ⟨-, q, -, -, -, -, agrees, -⟩ := u.new live
      rw [dir, agrees_dir] at agrees
      exact ⟨agrees.2, u.tidy.find_lt agrees.1⟩
  case unique =>
    intro c c' live live' dir dir' same
    rcases u.live live with was | rfl
    · rw [u.ino (h.lt was)] at same
      rw [u.type (h.lt was)] at dir
      rcases u.live live' with was' | rfl
      · rw [u.ino (h.lt was')] at same
        rw [u.type (h.lt was')] at dir'
        exact h.unique was was' dir dir' same
      · exact absurd same (u.new_dir live' dir' live was dir)
    · rcases u.live live' with was' | rfl
      · rw [u.ino (h.lt was')] at same
        rw [u.type (h.lt was')] at dir'
        exact absurd same.symm (u.new_dir live dir live' was' dir')
      · rfl

/-- The same entries, and no others are live. -/
theorem Cached.less {vnode vdent : Nat → Option Nat} {vino : Nat → Nat} {vnext : Nat}
    {files held : List Nat} (h : Cached w)
    (holders : ∀ c ∈ holders { w with vnode, vino, vdent, vnext, files, held }, w.Live c) :
    Cached { w with vnode, vino, vdent, vnext, files, held } :=
  have live {c : Nat} (hc : Live { w with vnode, vino, vdent, vnext, files, held } c) : w.Live c :=
    hc.of_same holders fun _ => rfl
  { h with
    lt := fun hc => h.lt (live hc)
    parent_dir := fun hc => h.parent_dir (live hc)
    entry := fun found hc => h.entry found (live hc)
    attached := fun hc => h.attached (live hc)
    dir := fun hc => h.dir (live hc)
    unique := fun hc hc' => h.unique (live hc) (live hc') }

/-- No vnode is opened. -/
theorem Vnodes.keep (hv : Vnodes w) (h : Cached w) (root : w'.fs.root = w.fs.root)
    (fs_next : w.fs.next ≤ w'.fs.next) (type : ∀ {c}, c < w.next → w'.type c = w.type c)
    (ino : ∀ {c}, c < w.next → w'.ino c = w.ino c)
    (vnode : ∀ {c}, c < w.next → w'.vnode c = w.vnode c)
    (new : ∀ {c v}, w'.vnode c = some v → w.vnode c = some v ∧ w'.ino c = w.ino c)
    (vino : w'.vino = w.vino) (vdent : w'.vdent = w.vdent) (vnext : w'.vnext = w.vnext)
    (files : ∀ v ∈ w'.files, v ∈ w.files) : Vnodes w' := by
  constructor
  case root_vino => rw [vino, root]; exact hv.root_vino
  case root_vdent => rw [vdent]; exact hv.root_vdent
  case root_vnode => exact (vnode (h.lt w.live_root)).trans hv.root_vnode
  case vnext_pos => rw [vnext]; exact hv.vnext_pos
  case file_lt =>
    intro v mem
    obtain ⟨less, ino_lt⟩ := hv.file_lt (files v mem)
    rw [vnext, vino]
    exact ⟨less, lt_of_lt_of_le ino_lt fs_next⟩
  case vnode_lt =>
    intro c v has
    rw [vnext]
    exact hv.vnode_lt (new has).1
  case same =>
    intro c v has
    obtain ⟨had, same⟩ := new has
    rw [vino, same]
    exact hv.same had
  case dent =>
    intro c v mem has
    rw [vdent] at has
    have less := h.lt (live_file (files v mem) has)
    rw [type less, ino less, vnode less, vino]
    exact hv.dent (files v mem) has
  case once =>
    intro v v' mem mem' same
    rw [vino] at same
    apply hv.once _ _ same
    · exact cons_subset_cons 0 files mem
    · exact cons_subset_cons 0 files mem'

/-! ### Walks -/

/-- Files are closed, and what the call has is live. -/
theorem Inv.keep {files held : List Nat} (inv : Inv w) (fewer : ∀ v ∈ files, v ∈ w.files)
    (live : ∀ c ∈ held, w.Live c) : Inv { w with files, held } := by
  constructor
  · apply inv.cached.less
    exact forall_holders w.live_root (fun v file _ dent => live_file (fewer v file) dent) live
  · exact inv.vnodes.keep inv.cached rfl (le_refl _) (fun _ => rfl) (fun _ => rfl) (fun _ => rfl)
      (fun has => ⟨has, rfl⟩) rfl rfl rfl fewer

theorem Inv.hold (inv : Inv w) (live : w.Live c) : Inv (w.hold c) :=
  inv.keep (fun _ mem => mem) (forall_mem_cons.mpr ⟨live, fun _ => live_held⟩)

theorem Inv.release (inv : Inv w) : Inv w.release := inv.keep (fun _ mem => mem) nofun

/-- A directory that is not cached under its name has no live entry. -/
theorem Cached.fresh (h : Cached w) (live : w.Live d) (dir : w.type d = .directory)
    (absent : w.upgrade (w.children d n) = none) (found : w.fs.find (w.ino d) n = some i)
    (other : w.Live c) (other_dir : w.type c = .directory) : w.ino c ≠ i := by
  rintro rfl
  obtain ⟨kind, -⟩ := h.dir other other_dir
  by_cases root : c = 0
  · subst root
    rw [h.root_ino] at found
    exact h.tidy.not_root found
  rcases h.attached other root with ⟨p, parent, listed⟩ | ⟨-, removed⟩
  · obtain ⟨-, -, agrees⟩ := h.entry listed other
    rw [other_dir] at agrees
    obtain ⟨same, name⟩ := h.tidy.once found agrees.1 kind
    obtain rfl : p = d := h.unique (other.above parent) live (h.parent_dir other parent) dir same
    rw [name] at listed
    have up := (upgrade_eq_some h.ordered).mpr ⟨listed, other⟩
    rw [absent] at up
    cases up
  · exact h.tidy.removed_absent removed kind found

theorem setChild_children {e : Option Nat} :
    (w.setChild d n e).children x y = if x = d ∧ y = n then e else w.children x y := by
  unfold setChild
  dsimp only
  by_cases here : x = d
  · subst here
    rw [update_self]
    by_cases name : y = n
    · subst name
      rw [update_self, if_pos ⟨rfl, rfl⟩]
    · rw [update_of_ne name, if_neg fun same => name same.2]
  · rw [update_of_ne here, if_neg fun same => here same.1]

/-- The children with a new entry. -/
theorem added_children {q : Nat} {m : Name} (less : d < w.next) :
    ((w.alloc type q m i).setChild d n (some w.next)).children x y = some c ↔
      (x = d ∧ y = n ∧ c = w.next) ∨
        ((x ≠ d ∨ y ≠ n) ∧ x ≠ w.next ∧ w.children x y = some c) := by
  rw [setChild_children]
  by_cases here : x = d ∧ y = n
  · obtain ⟨rfl, rfl⟩ := here
    simp [eq_comm]
  · rw [if_neg here]
    have away := Decidable.not_and_iff_or_not.mp here
    change update w.children w.next (fun _ => none) x y = some c ↔ _
    by_cases new : x = w.next
    · subst new
      simp [ne_of_gt less]
    · rw [update_of_ne new]
      constructor
      · intro found
        exact .inr ⟨away, new, found⟩
      · rintro (⟨rfl, rfl, -⟩ | ⟨-, -, found⟩)
        · exact absurd ⟨rfl, rfl⟩ here
        · exact found

theorem ordered_of_update (ordered : w.Ordered) (less : d < w.next)
    (same : w'.parent = update w.parent w.next (some d)) : w'.Ordered := by
  intro c p parent
  rw [same] at parent
  by_cases new : c = w.next
  · subst new
    rw [update_self] at parent
    cases parent
    exact less
  · rw [update_of_ne new] at parent
    exact ordered parent

theorem Vnodes.added (hv : Vnodes w) (h : Cached w) (root : w'.fs.root = w.fs.root)
    (fs_next : w.fs.next ≤ w'.fs.next) (htype : w'.type = update w.type w.next type)
    (hino : w'.ino = update w.ino w.next i) (vnode : w'.vnode = update w.vnode w.next none)
    (vino : w'.vino = w.vino) (vdent : w'.vdent = w.vdent) (vnext : w'.vnext = w.vnext)
    (files : w'.files = w.files) : Vnodes w' := by
  refine hv.keep h root fs_next (fun less => ?_) (fun less => ?_) (fun less => ?_) ?_
    vino vdent vnext ?_
  · rw [htype, update_of_ne less.ne]
  · rw [hino, update_of_ne less.ne]
  · rw [vnode, update_of_ne less.ne]
  · intro c v has
    rw [vnode] at has
    by_cases new : c = w.next
    · rw [new, update_self] at has
      cases has
    · rw [update_of_ne new] at has
      rw [hino, update_of_ne new]
      exact ⟨has, rfl⟩
  · intro v mem
    rwa [files] at mem

/-- The entry that `lookup_impl` adds. -/
theorem Inv.look (inv : Inv w) (live : w.Live d) (dir : w.type d = .directory)
    (absent : w.upgrade (w.children d n) = none)
    (agrees : Agrees w.fs type i (w.fs.find (w.ino d) n)) :
    Inv (((w.alloc type d n i).setChild d n (some w.next)).hold w.next) := by
  have d_lt := inv.cached.lt live
  have children {x c : Nat} {y : Name} :
      ((w.alloc type d n i).setChild d n (some w.next)).children x y = some c ↔ _ :=
        added_children d_lt
  constructor
  · apply inv.cached.update
    constructor
    case tidy => exact inv.cached.tidy
    case root => rfl
    case fs_next => exact le_refl _
    case kind => exact fun _ => rfl
    case removed => exact fun _ removed => removed
    case next_le => exact le_succ _
    case type | parent | name | ino => exact fun less => update_of_ne less.ne ..
    case ordered => exact ordered_of_update inv.cached.ordered d_lt rfl
    case live =>
      intro c now
      apply now.mem
      · exact forall_holders (.inl w.live_root) (fun _ file _ dent => .inl (live_file file dent))
          (forall_mem_cons.mpr ⟨.inr rfl, fun _ held => .inl (live_held held)⟩)
      · intro c p here parent
        change update w.parent w.next (some d) c = some p at parent
        rcases here with was | rfl
        · rw [update_of_ne (inv.cached.lt was).ne] at parent
          exact .inl (was.above parent)
        · rw [update_self] at parent
          cases parent
          exact .inl live
    case child =>
      intro c x y found
      change x < w.next + 1 ∧ c < w.next + 1 ∧ update w.type w.next type x = _
      rcases children.mp found with ⟨rfl, rfl, rfl⟩ | ⟨-, -, found⟩
      · rw [update_of_ne d_lt.ne]
        exact ⟨by omega, by omega, dir⟩
      · obtain ⟨x_lt, c_lt, x_dir⟩ := inv.cached.child found
        rw [update_of_ne x_lt.ne]
        exact ⟨by omega, by omega, x_dir⟩
    case old =>
      intro c x y found _ was
      rcases children.mp found with ⟨rfl, rfl, rfl⟩ | ⟨-, -, found⟩
      · exact absurd (inv.cached.lt was) (lt_irrefl _)
      · exact ⟨found, rfl⟩
    case kept =>
      intro c p _ was parent found
      left
      apply children.mpr
      right
      refine ⟨?_, (inv.cached.lt (was.above parent)).ne, found⟩
      -- the name has no live entry yet
      apply Decidable.not_and_iff_or_not.mp
      rintro ⟨rfl, rfl⟩
      have up := (upgrade_eq_some inv.cached.ordered).mpr ⟨found, was⟩
      rw [absent] at up
      cases up
    case new =>
      intro _
      change w.next < w.next + 1 ∧ ∃ q, update w.parent w.next (some d) w.next = some q ∧
        w.Live q ∧
        w.type q = .directory ∧ ((w.alloc type d n i).setChild d n (some w.next)).children q
          (update w.name w.next n w.next) = some w.next ∧
        Agrees w.fs (update w.type w.next type w.next) (update w.ino w.next i w.next)
          (w.fs.find (w.ino q) (update w.name w.next n w.next)) ∧
        ∀ x y, _ = _ → x = q ∧ y = update w.name w.next n w.next
      simp only [update_self]
      refine ⟨lt_succ_self _, d, rfl, live, dir, children.mpr (.inl ⟨rfl, rfl, rfl⟩),
        agrees, ?_⟩
      intro x y found
      rcases children.mp found with ⟨rfl, rfl, -⟩ | ⟨-, -, found⟩
      · exact ⟨rfl, rfl⟩
      · exact absurd (inv.cached.child found).2.1 (lt_irrefl _)
    case new_dir =>
      intro c _ new_dir _ was was_dir
      change update w.type w.next type w.next = _ at new_dir
      change w.ino c ≠ update w.ino w.next i w.next
      rw [update_self] at new_dir ⊢
      rw [new_dir] at agrees
      exact inv.cached.fresh live dir absent agrees.1 was was_dir
  · exact inv.vnodes.added inv.cached rfl (le_refl _) rfl rfl rfl rfl rfl rfl rfl

theorem Inv.lookup (inv : Inv w) (held : d ∈ w.held) (found : w.lookupImpl d n = .ok w') :
    Inv w' := by
  have live := live_held held
  unfold lookupImpl at found
  split at found
  · cases found
    exact inv.hold live
  split at found
  · cases found
    apply inv.hold
    cases parent : w.parent d with
    | none => exact live
    | some p => exact live.above parent
  split at found
  · cases found
  rename_i dir
  rw [Decidable.not_not] at dir
  cases up : w.upgrade (w.children d n) with
  | some c =>
    simp only [up] at found
    cases found
    exact inv.hold ((upgrade_eq_some inv.cached.ordered).mp up).2
  | none =>
    simp only [up] at found
    cases entry : w.fs.find (w.ino d) n with
    | none =>
      simp only [entry] at found
      cases found
      exact inv.look live dir up entry
    | some i =>
      simp only [entry] at found
      cases found
      apply inv.look live dir up
      rw [agrees_iff (by cases w.fs.kind i <;> nofun)]
      exact ⟨entry, rfl⟩

/-! ### Vnodes -/

theorem Vnodes.dent_root (hv : Vnodes w) (h : Cached w) (mem : v ∈ 0 :: w.files)
    (has : w.vdent v = some c) :
    w.Live c ∧ w.type c = .directory ∧ w.ino c = w.vino v ∧ w.vnode c = some v := by
  cases mem with
  | head =>
    cases hv.root_vdent.symm.trans has
    exact ⟨w.live_root, h.root_type, h.root_ino.trans hv.root_vino.symm, hv.root_vnode⟩
  | tail _ mem => exact ⟨live_file mem has, hv.dent mem has⟩

theorem Vnodes.vnodeOf (hv : Vnodes w) (found : w.vnodeOf c = some v) : v ∈ 0 :: w.files ∧
    w.vino v = w.ino c := by
  unfold World.vnodeOf at found
  split at found
  · rename_i up
    cases found
    obtain ⟨has, live⟩ := Option.filter_eq_some_iff.mp up
    exact ⟨mem_cons.mpr (of_decide_eq_true live), hv.same has⟩
  · exact ⟨mem_of_find?_eq_some found, by simpa using find?_some found⟩

theorem not_mem_of_vnodeOf (none : w.vnodeOf c = none) (mem : v ∈ 0 :: w.files) :
    w.vino v ≠ w.ino c := by
  unfold vnodeOf at none
  split at none
  · cases none
  · intro same
    exact find?_eq_none.mp none v mem (decide_eq_true same)

/-- The vnode of a directory has the entry of the directory. -/
theorem Inv.dentOf (inv : Inv w) (live : w.Live d) (dir : w.type d = .directory) :
    w.dentOf d = d := by
  unfold World.dentOf
  cases found : w.vnodeOf d with
  | none => rfl
  | some v =>
    obtain ⟨mem, same⟩ := inv.vnodes.vnodeOf found
    cases dent : w.vdent v with
    | none => simp [dent]
    | some c =>
      obtain ⟨other, other_dir, ino, -⟩ := inv.vnodes.dent_root inv.cached mem dent
      have eq : c = d := inv.cached.unique other live other_dir dir (ino.trans same)
      simp [dent, eq]

theorem Inv.vino_lt (inv : Inv w) (mem : v ∈ 0 :: w.files) : v < w.vnext ∧
    w.vino v < w.fs.next := by
  cases mem with
  | head =>
    rw [inv.vnodes.root_vino]
    exact ⟨inv.vnodes.vnext_pos, inv.cached.tidy.root_lt⟩
  | tail _ mem => exact inv.vnodes.file_lt mem

/-- A vnode that was open is opened once more. -/
theorem Inv.reopen (inv : Inv w) (mem : v ∈ 0 :: w.files) (same : w.vino v = w.ino c) :
    Inv { w with vnode := update w.vnode c (some v), files := v :: w.files } := by
  have again {x : Nat} (here : x ∈ v :: w.files) : x ∈ 0 :: w.files := by
    cases here with
    | head => exact mem
    | tail _ here => exact .tail _ here
  have still {x : Nat} (here : x ∈ 0 :: v :: w.files) : x ∈ 0 :: w.files := by
    cases here with
    | head => exact .head _
    | tail _ here => exact again here
  constructor
  · apply inv.cached.less
    exact forall_holders w.live_root (fun _ file _ dent =>
      (inv.vnodes.dent_root inv.cached (again file) dent).1) fun _ held => live_held held
  constructor
  case root_vino => exact inv.vnodes.root_vino
  case root_vdent => exact inv.vnodes.root_vdent
  case vnext_pos => exact inv.vnodes.vnext_pos
  case root_vnode =>
    dsimp only
    by_cases root : c = 0
    · subst root
      rw [inv.cached.root_ino, ← inv.vnodes.root_vino] at same
      rw [inv.vnodes.once mem (.head _) same, update_self]
    · rw [update_of_ne (Ne.symm root)]
      exact inv.vnodes.root_vnode
  case file_lt => exact fun here => inv.vino_lt (again here)
  case vnode_lt =>
    intro x v' has
    simp only [update_apply] at has
    split at has
    · cases has
      exact (inv.vino_lt mem).1
    · exact inv.vnodes.vnode_lt has
  case same =>
    intro x v' has
    simp only [update_apply] at has
    split at has
    · rename_i here
      cases has
      exact here ▸ same
    · exact inv.vnodes.same has
  case dent =>
    intro x v' file dent
    obtain ⟨-, dir, ino, vnode⟩ := inv.vnodes.dent_root inv.cached (again file) dent
    dsimp only
    refine ⟨dir, ino, ?_⟩
    by_cases here : x = c
    · subst here
      rw [update_self, inv.vnodes.once mem (again file) (same.trans ino)]
    · rwa [update_of_ne here]
  case once => exact fun first second => inv.vnodes.once (still first) (still second)

section

variable (inv : Inv w) (live : w.type c = .directory → w.Live c) (less : w.ino c < w.fs.next)
include inv live less

/-- A vnode is opened that no open file has. -/
theorem Inv.openFresh (absent : ∀ v ∈ 0 :: w.files, w.vino v ≠ w.ino c) : Inv { w with
      vino := update w.vino w.vnext (w.ino c)
      vdent := update w.vdent w.vnext (if w.type c = .directory then some c else none)
      vnode := update w.vnode c (some w.vnext)
      vnext := w.vnext + 1
      files := w.vnext :: w.files } := by
  have other {v : Nat} mem : v ≠ w.vnext := Nat.ne_of_lt (inv.vino_lt mem).1
  have not_root : c ≠ 0 := by
    rintro rfl
    rw [inv.cached.root_ino] at absent
    exact absent 0 (.head _) inv.vnodes.root_vino
  constructor
  · apply inv.cached.less
    refine forall_holders w.live_root (fun v file x dent => ?_) fun _ held => live_held held
    dsimp only at file dent
    cases file with
    | head =>
      rw [update_self] at dent
      split at dent
      · cases dent
        exact live ‹_›
      · cases dent
    | tail _ file =>
      rw [update_of_ne (other (.tail _ file))] at dent
      exact live_file file dent
  constructor
  case root_vino => exact (update_of_ne (other (.head _)) ..).trans inv.vnodes.root_vino
  case root_vdent => exact (update_of_ne (other (.head _)) ..).trans inv.vnodes.root_vdent
  case vnext_pos => exact succ_pos _
  case root_vnode => exact (update_of_ne not_root.symm ..).trans inv.vnodes.root_vnode
  case file_lt =>
    intro v file
    dsimp only at file ⊢
    cases file with
    | head =>
      rw [update_self]
      exact ⟨lt_succ_self _, less⟩
    | tail _ file =>
      rw [update_of_ne (other (.tail _ file))]
      obtain ⟨v_lt, ino_lt⟩ := inv.vnodes.file_lt file
      exact ⟨lt_succ_of_lt v_lt, ino_lt⟩
  case vnode_lt =>
    intro x v has
    simp only [update_apply] at has
    split at has
    · cases has
      exact lt_succ_self _
    · exact lt_succ_of_lt (inv.vnodes.vnode_lt has)
  case same =>
    intro x v has
    simp only [update_apply] at has
    split at has
    · rename_i here
      cases has
      exact here ▸ update_self ..
    · exact (update_of_ne (inv.vnodes.vnode_lt has).ne ..).trans (inv.vnodes.same has)
  case dent =>
    intro x v file dent
    dsimp only at file dent ⊢
    cases file with
    | head =>
      rw [update_self] at dent ⊢
      split at dent
      · cases dent
        rw [update_self]
        exact ⟨‹_›, rfl, rfl⟩
      · cases dent
    | tail _ file =>
      rw [update_of_ne (other (.tail _ file))] at dent ⊢
      obtain ⟨dir, ino, vnode⟩ := inv.vnodes.dent file dent
      have here : x ≠ c := by
        rintro rfl
        exact absent v (.tail _ file) ino.symm
      rw [update_of_ne here]
      exact ⟨dir, ino, vnode⟩
  case once =>
    have new_or {v : Nat} (mem : v ∈ 0 :: w.vnext :: w.files) : v = w.vnext ∨
        v ∈ 0 :: w.files := by
      simp only [mem_cons] at mem ⊢
      tauto
    intro v v' first second same
    dsimp only at same
    rcases new_or first with rfl | first
    · rcases new_or second with rfl | second
      · rfl
      · rw [update_self, update_of_ne (other second)] at same
        exact absurd same.symm (absent v' second)
    · rcases new_or second with rfl | second
      · rw [update_self, update_of_ne (other first)] at same
        exact absurd same (absent v first)
      · rw [update_of_ne (other first), update_of_ne (other second)] at same
        exact inv.vnodes.once first second same

theorem Inv.openVnode : Inv (w.openVnode c) := by
  unfold World.openVnode
  cases found : w.vnodeOf c with
  | some v =>
    obtain ⟨mem, same⟩ := inv.vnodes.vnodeOf found
    exact inv.reopen mem same
  | none => exact inv.openFresh live less fun v => not_mem_of_vnodeOf found

end

/-! ### Changes of the filesystem -/

namespace Fs

variable {fs' : Fs}

/-- One name of one directory may change. -/
structure Change (fs fs' : Fs) (d : Nat) (n : Name) : Prop where
  tidy : fs'.Tidy
  root : fs'.root = fs.root
  next_le : fs.next ≤ fs'.next
  kind {i : Nat} : i < fs.next → fs'.kind i = fs.kind i
  removed {i : Nat} : i < fs.next → fs.removed i = true → fs'.removed i = true
  other {x : Nat} {y : Name} : x ≠ d ∨ y ≠ n → fs'.find x y = fs.find x y
  /-- A directory that was there is removed. -/
  gone {i : Nat} : fs.find d n = some i → fs.kind i = .directory → fs'.removed i = true

variable {e : Option Nat}

theorem set_find_of_ne (away : x ≠ d ∨ y ≠ n) :
    (fs.set d n e).find x y = fs.find x y := if_neg (Decidable.not_and_iff_or_not.mpr away)

theorem set_find_self : (fs.set d n e).find d n = e := if_pos ⟨rfl, rfl⟩

/-- What is found after a change is new or was there. -/
theorem set_find_cases (found : (fs.set d n e).find x y = some i) :
    (x = d ∧ y = n ∧ e = some i) ∨ ((x ≠ d ∨ y ≠ n) ∧ fs.find x y = some i) := by
  by_cases here : x = d ∧ y = n
  · obtain ⟨rfl, rfl⟩ := here
    rw [set_find_self] at found
    exact .inl ⟨rfl, rfl, found⟩
  · have away := Decidable.not_and_iff_or_not.mp here
    rw [set_find_of_ne away] at found
    exact .inr ⟨away, found⟩

/-- An entry may be set to a file that there is, to a directory that is nowhere, or to nothing. -/
theorem Tidy.set (h : fs.Tidy) (lt : ∀ {i}, e = some i → i < fs.next) (not_root : e ≠ some
    fs.root) (nowhere : ∀ {i x y}, e = some i → fs.kind i = .directory →
      fs.removed i = false ∧ (x ≠ d ∨ y ≠ n → fs.find x y ≠ some i)) :
        (fs.set d n e).Tidy := by
  constructor
  case root_dir => exact h.root_dir
  case root_lt => exact h.root_lt
  case not_root =>
    intro x y found
    rcases set_find_cases found with ⟨-, -, new⟩ | ⟨-, found⟩
    · exact not_root new
    · exact h.not_root found
  case find_lt =>
    intro x i y found
    rcases set_find_cases found with ⟨-, -, new⟩ | ⟨-, found⟩
    · exact lt new
    · exact h.find_lt found
  case once =>
    intro x x' i y y' found found' dir
    rcases set_find_cases found with ⟨rfl, rfl, new⟩ | ⟨away, was⟩
    · rcases set_find_cases found' with ⟨rfl, rfl, -⟩ | ⟨away', was'⟩
      · exact ⟨rfl, rfl⟩
      · exact absurd was' ((nowhere new dir).2 away')
    · rcases set_find_cases found' with ⟨rfl, rfl, new⟩ | ⟨-, was'⟩
      · exact absurd was ((nowhere new dir).2 away)
      · exact h.once was was' dir
  case removed_absent =>
    intro x i y removed dir found
    rcases set_find_cases found with ⟨rfl, rfl, new⟩ | ⟨-, found⟩
    · have kept := (nowhere (x := x) (y := y) new dir).1
      change fs.removed i = true at removed
      rw [kept] at removed
      cases removed
    · exact h.removed_absent removed dir found

/-- What is set at a name that had no directory. -/
theorem Change.set (tidy : (fs.set d n e).Tidy)
    (file : ∀ {i}, fs.find d n = some i → fs.kind i ≠ .directory) :
    fs.Change (fs.set d n e) d n where
  tidy := tidy
  root := rfl
  next_le := le_refl _
  kind _ := rfl
  removed _ removed := removed
  other := set_find_of_ne
  gone found dir := absurd dir (file found)

theorem Tidy.clear (h : fs.Tidy) : (fs.set d n none).Tidy := h.set nofun nofun nofun

theorem Tidy.unlink {mode : UnlinkMode} (h : fs.Tidy) (ok : fs.unlink d n mode = .ok fs') :
    fs.Change fs' d n ∧ fs'.find d n = none ∧ fs'.kind = fs.kind := by
  unfold Fs.unlink at ok
  split at ok
  · cases ok
  rename_i i found
  split at ok
  · rename_i dir
    split at ok
    · cases ok
    split at ok
    · cases ok
      refine ⟨?_, set_find_self, rfl⟩
      have clear : (fs.set d n none).Tidy := h.clear
      constructor
      case tidy =>
        refine { clear with removed_absent := ?_ }
        intro x j y removed kind found'
        change update fs.removed i true j = true at removed
        by_cases here : j = i
        · subst here
          rcases set_find_cases found' with ⟨-, -, new⟩ | ⟨away, found'⟩
          · cases new
          · obtain ⟨rfl, rfl⟩ := h.once found found' dir
            simp at away
        · rw [update_of_ne here] at removed
          exact clear.removed_absent removed kind found'
      case root => rfl
      case next_le => exact le_refl _
      case kind => exact fun _ => rfl
      case other => exact set_find_of_ne
      case removed =>
        intro j _ removed
        change update fs.removed i true j = true
        by_cases here : j = i
        · rw [here, update_self]
        · rwa [update_of_ne here]
      case gone =>
        intro j found' _
        cases found.symm.trans found'
        exact update_self ..
    · cases ok
  · rename_i file
    split at ok
    · cases ok
    cases ok
    refine ⟨.set h.clear fun found' => ?_, set_find_self, rfl⟩
    cases found.symm.trans found'
    exact file

theorem Tidy.link (h : fs.Tidy) (lt : i < fs.next) (file : fs.kind i ≠ .directory)
    (ok : fs.link d n i = .ok fs') : fs.Change fs' d n := by
  unfold Fs.link at ok
  split at ok
  · rename_i absent
    cases ok
    refine .set ?_ fun found => nomatch absent.symm.trans found
    apply h.set
    · rintro _ ⟨rfl⟩
      exact lt
    · rintro ⟨rfl⟩
      exact file h.root_dir
    · rintro _ _ _ ⟨rfl⟩ dir
      exact absurd dir file
  · cases ok

theorem Tidy.makeFile (h : fs.Tidy) (ok : fs.makeFile d n kind = .ok fs') :
    fs.Change fs' d n ∧ fs'.next = fs.next + 1 := by
  unfold Fs.makeFile at ok
  split at ok
  · rename_i absent
    cases ok
    refine ⟨?_, rfl⟩
    -- first the new inode, which is nowhere yet
    have grown : Fs.Tidy { fs with
        kind := update fs.kind fs.next kind
        removed := update fs.removed fs.next false
        next := fs.next + 1 } := by
      constructor
      case root_dir => exact (update_of_ne h.root_lt.ne ..).trans h.root_dir
      case root_lt => exact lt_succ_of_lt h.root_lt
      case not_root => exact h.not_root
      case find_lt => exact fun found => lt_succ_of_lt (h.find_lt found)
      case once =>
        intro x x' i y y' found found' dir
        dsimp only at dir
        rw [update_of_ne (h.find_lt found).ne] at dir
        exact h.once found found' dir
      case removed_absent =>
        intro x i y removed dir found
        dsimp only at removed dir
        rw [update_of_ne (h.find_lt found).ne] at removed dir
        exact h.removed_absent removed dir found
    constructor
    case tidy =>
      apply grown.set
      · rintro _ ⟨rfl⟩
        exact lt_succ_self _
      · intro same
        exact h.root_lt.ne (Option.some.inj same).symm
      · rintro _ x y ⟨rfl⟩ -
        refine ⟨update_self .., fun _ found => ?_⟩
        exact lt_irrefl _ (h.find_lt found)
    case root => rfl
    case next_le => exact le_succ _
    case kind => exact fun less => update_of_ne less.ne ..
    case removed => exact fun less removed => (update_of_ne less.ne ..).trans removed
    case other => exact set_find_of_ne
    case gone =>
      intro j found
      cases absent.symm.trans found
  · cases ok

end Fs

/-! ### Calls that change one name -/

theorem Cached.apart (h : Cached w) (live : w.Live d) (dir : w.type d = .directory)
    (live' : w.Live x)
    (dir' : w.type x = .directory) (away : x ≠ d ∨ y ≠ n) : w.ino x ≠ w.ino d ∨
    y ≠ n := by
  rcases away with away | away
  · exact .inl fun same => away (h.unique live' live dir' dir same)
  · exact .inr away

section

variable (inv : Inv w)
include inv

/-- One name of a directory changes, and what the call holds is dropped. -/
theorem Inv.touch (live : w.Live d) (dir : w.type d = .directory)
    (change : w.fs.Change w'.fs (w.ino d) n)
    (ordered : w'.Ordered) (next_le : w.next ≤ w'.next) (type : ∀ {c}, c < w.next →
    w'.type c = w.type c)
    (parent : ∀ {c}, c < w.next → w'.parent c = w.parent c) (name : ∀ {c}, c < w.next →
    w'.name c = w.name c)
    (ino : ∀ {c}, c < w.next → w'.ino c = w.ino c) (holders : w'.holders = w.release.holders)
    (children : ∀ {x y c}, w'.children x y = some c → (x = d ∧ y = n ∧ c = w.next ∧
    w.next < w'.next) ∨ ((x ≠ d ∨ y ≠ n) ∧ w.children x y = some c))
    (kept : ∀ {x y}, x < w.next → (x ≠ d ∨ y ≠ n) → w'.children x y = w.children x y) :
    Cached w' := by
  have rest {c : Nat} (now : w'.Live c) : w.release.Live c := by
    refine now.of_same ?_ ?_
    · intro x holder
      rw [holders] at holder
      exact .holder holder
    · intro x was
      exact parent (inv.cached.lt was.of_release)
  apply inv.cached.update
  constructor
  case tidy => exact change.tidy
  case ordered | next_le | type | parent | name | ino => assumption
  case root => exact change.root
  case fs_next => exact change.next_le
  case kind => exact change.kind
  case removed => exact change.removed
  case live => exact fun now => .inl (rest now).of_release
  case child =>
    intro c x y found
    rcases children found with ⟨rfl, rfl, rfl, more⟩ | ⟨-, found⟩
    · have d_lt := inv.cached.lt live
      rw [type d_lt]
      exact ⟨by omega, more, dir⟩
    · obtain ⟨x_lt, c_lt, x_dir⟩ := inv.cached.child found
      rw [type x_lt]
      exact ⟨by omega, by omega, x_dir⟩
  case old =>
    intro c x y found _ was
    rcases children found with ⟨-, -, rfl, -⟩ | ⟨away, found⟩
    · exact absurd (inv.cached.lt was) (lt_irrefl _)
    · obtain ⟨above, -, -⟩ := inv.cached.entry found was
      have apart :=
        inv.cached.apart live dir (was.above above) (inv.cached.parent_dir was above) away
      exact ⟨found, change.other apart⟩
  case kept =>
    intro c p now was above found
    have c_dir := inv.dir_of_release (rest now)
    by_cases here : p = d ∧ w.name c = n
    · obtain ⟨rfl, rfl⟩ := here
      obtain ⟨-, -, agrees⟩ := inv.cached.entry found was
      rw [c_dir, agrees_dir] at agrees
      exact .inr ⟨c_dir, change.gone agrees.1 agrees.2⟩
    · left
      rw [kept (inv.cached.lt (was.above above)) (Decidable.not_and_iff_or_not.mp here)]
      exact found
  case new | new_dir => exact fun now => absurd (inv.cached.lt (rest now).of_release) (lt_irrefl _)

section

variable (live : w.Live d) (dir : w.type d = .directory) (change : w.fs.Change fs (w.ino d) n)
include live dir change

/-- The entry of the name is taken out of the cache. -/
theorem Inv.forget : Inv ({ w with fs }.setChild d n none).release := by
  constructor
  · refine inv.touch live dir change (fun parent => inv.cached.ordered parent) (le_refl _)
      (fun _ => rfl) (fun _ => rfl) (fun _ => rfl) (fun _ => rfl) rfl ?_ ?_
    · intro x y c found
      change (setChild { w with fs } d n none).children x y = some c at found
      rw [setChild_children] at found
      split at found
      · cases found
      · exact .inr ⟨Decidable.not_and_iff_or_not.mp ‹_›, found⟩
    · intro x y _ away
      change (setChild { w with fs } d n none).children x y = _
      rw [setChild_children, if_neg (Decidable.not_and_iff_or_not.mpr away)]
  · exact inv.vnodes.keep inv.cached change.root change.next_le (fun _ => rfl) (fun _ => rfl)
      (fun _ => rfl) (fun has => ⟨has, rfl⟩) rfl rfl rfl fun _ mem => mem

/-- The name has a new entry, which nothing holds. -/
theorem Inv.replace : Inv ({ w.alloc type d n i with fs }.setChild d n (some w.next)).release := by
  have d_lt := inv.cached.lt live
  have children {x c : Nat} {y : Name} :
      ((w.alloc type d n i).setChild d n (some w.next)).children x y = some c ↔ _ :=
        added_children d_lt
  constructor
  · refine inv.touch live dir change (ordered_of_update inv.cached.ordered d_lt rfl) (le_succ _)
      (fun less => update_of_ne less.ne ..) (fun less => update_of_ne less.ne ..)
      (fun less => update_of_ne less.ne ..) (fun less => update_of_ne less.ne ..)
      rfl ?_ ?_
    · intro x y c found
      rcases children.mp found with ⟨rfl, rfl, rfl⟩ | ⟨away, -, found⟩
      · exact .inl ⟨rfl, rfl, rfl, lt_succ_self _⟩
      · exact .inr ⟨away, found⟩
    · intro x y less away
      change ((w.alloc type d n i).setChild d n (some w.next)).children x y = _
      rw [setChild_children, if_neg (Decidable.not_and_iff_or_not.mpr away)]
      exact congrFun (update_of_ne less.ne ..) y
  · exact inv.vnodes.added inv.cached change.root change.next_le rfl rfl rfl rfl rfl rfl rfl

end

/-- The directory of an entry that the call has. -/
theorem Inv.above (held : c ∈ w.held) (parent : w.parent c = some d) : w.Live d ∧
    w.type d = .directory := by
  have live := live_held held
  exact ⟨live.above parent, inv.cached.parent_dir live parent⟩

theorem Inv.commit {r : Except Errno World} (ok : ∀ {w'}, r = .ok w' → Inv w'.release) :
    Inv (commit w r) := by
  cases r with
  | ok w' => exact ok rfl
  | error => exact inv.release

theorem Inv.unlink {isRmdir : Bool} (held : c ∈ w.held) (ok : w.unlink c isRmdir = .ok w') :
    Inv w'.release := by
  unfold World.unlink at ok
  split at ok
  · cases ok
  rename_i d parent
  obtain ⟨live, dir⟩ := inv.above held parent
  split at ok
  · cases ok
  cases done : w.fs.unlink (w.ino d) (w.name c) (if isRmdir then .dirOnly else .fileOnly) with
  | error => rw [done] at ok; cases ok
  | ok fs =>
    rw [done] at ok
    cases ok
    exact inv.forget live dir (inv.cached.tidy.unlink done).1

theorem Inv.link {old new : Nat} (held : old ∈ w.held) (ok : w.link old new = .ok w') :
    Inv w'.release := by
  unfold World.link at ok
  split at ok
  · cases ok
  rename_i file
  split at ok
  · cases ok
  rename_i d parent
  obtain ⟨live, dir⟩ := inv.above held parent
  split at ok
  · cases ok
  split at ok
  · cases ok
  rename_i found
  cases done : w.fs.link (w.ino d) (w.name new) (w.ino old) with
  | error => rw [done] at ok; cases ok
  | ok fs =>
    rw [done] at ok
    cases ok
    obtain ⟨less, kind⟩ := inv.cached.agrees (live_held held) found
    have not_dir : w.fs.kind (w.ino old) ≠ .directory := by
      intro eq
      rw [eq] at kind
      exact file kind.symm
    exact inv.forget live dir (inv.cached.tidy.link less not_dir done)

theorem Inv.makeFile (held : c ∈ w.held) (ok : w.makeFile c kind = .ok w') : Inv w'.release := by
  unfold World.makeFile at ok
  split at ok
  · cases ok
  rename_i d parent
  obtain ⟨live, dir⟩ := inv.above held parent
  split at ok
  · cases ok
  split at ok
  · cases ok
  cases done : w.fs.makeFile (w.ino d) (w.name c) kind with
  | error => rw [done] at ok; cases ok
  | ok fs =>
    rw [done, inv.dentOf live dir] at ok
    cases ok
    exact inv.replace live dir (inv.cached.tidy.makeFile done).1

/-- The new file is opened after its entry was added. -/
theorem Inv.create (live : w.Live d) (dir : w.type d = .directory)
    (done : w.fs.makeFile (w.ino d) n .file = .ok fs) :
    Inv ((openNew { w.alloc .file d n w.fs.next with
      fs, vnode := update (w.alloc .file d n w.fs.next).vnode w.next (some w.vnext) }
      w.fs.next).setChild d n (some w.next)).release := by
  obtain ⟨change, next⟩ := inv.cached.tidy.makeFile done
  have made : Inv ({ w.alloc .file d n w.fs.next with fs }.setChild d n (some w.next)).release :=
    inv.replace live dir change
  have type : update w.type w.next .file w.next = .file := update_self ..
  have ino : update w.ino w.next w.fs.next w.next = w.fs.next := update_self ..
  have opened := made.openFresh (c := w.next) (fun dir => ?_) ?_ ?_
  · change Inv { World.release (World.setChild { w.alloc .file d n w.fs.next with fs } d n
        (some w.next)) with
      vino := update w.vino w.vnext (update w.ino w.next w.fs.next w.next)
      vdent := update w.vdent w.vnext (if update w.type w.next .file w.next = .directory then
        some w.next else none)
      vnode := update (w.alloc .file d n w.fs.next).vnode w.next (some w.vnext)
      vnext := w.vnext + 1
      files := w.vnext :: w.files } at opened
    rw [type, ino] at opened
    exact opened
  · cases type.symm.trans dir
  · change update w.ino w.next w.fs.next w.next < fs.next
    rw [ino, next]
    exact lt_succ_self _
  · intro v mem same
    change w.vino v = update w.ino w.next w.fs.next w.next at same
    rw [ino] at same
    exact Nat.ne_of_lt (inv.vino_lt mem).2 same

theorem Inv.oCreatHelper (held : c ∈ w.held) (ok : w.oCreatHelper c exclusive = .ok w') :
    Inv w'.release := by
  unfold World.oCreatHelper at ok
  split at ok
  · cases ok
  rename_i d parent
  obtain ⟨live, dir⟩ := inv.above held parent
  dsimp only at ok
  rw [inv.dentOf live dir] at ok
  have create (ok : (if w.fs.removed (w.ino d) then Except.error Errno.enoent
      else do
        let fs ← w.fs.makeFile (w.ino d) (w.name c) .file
        let w' := { w.alloc .file d (w.name c) w.fs.next with fs }
        let w' := { w' with vnode := update w'.vnode w.next (some w.vnext) }
        Except.ok ((w'.openNew w.fs.next).setChild d (w.name c) (some w.next))) = .ok w') :
            Inv w'.release := by
    split at ok
    · cases ok
    cases done : w.fs.makeFile (w.ino d) (w.name c) .file with
    | error => rw [done] at ok; cases ok
    | ok fs =>
      rw [done] at ok
      cases ok
      exact inv.create live dir done
  split at ok
  · exact create ok
  · rename_i x up
    obtain ⟨-, here⟩ := (upgrade_eq_some inv.cached.ordered).mp up
    split at ok
    · exact create ok
    · cases ok
    · cases ok
    · rename_i file
      split at ok
      · cases ok
      · cases ok
        have less := (inv.cached.agrees here (by rw [file]; nofun)).1
        exact (inv.openVnode (fun _ => here) less).release

theorem Inv.openFile {create : Bool} (held : c ∈ w.held)
    (ok : w.openFile c create exclusive = .ok w') : Inv w'.release := by
  have live := live_held held
  have opens (found : w.type c ≠ .negative) : Inv (w.openVnode c).release :=
    (inv.openVnode (fun _ => live) (inv.cached.agrees live found).1).release
  unfold World.openFile at ok
  split at ok
  · split at ok
    · exact inv.oCreatHelper held ok
    · cases ok
  · rename_i dir
    split at ok
    · cases ok
    · cases ok
      exact opens (by rw [dir]; nofun)
  · rename_i found _
    cases ok
    exact opens found

end

end BadgerOS.DentCache
