import BadgerOS.Vfs.Path

/-!
# Path resolution

What a path designates is defined on the rest of the path, component by component:
a symbolic link is replaced by its target. Each byte carries how many link targets
it stands in; no rule depends on that, it only tells apart what the walker does
differently. The walker keeps a stack of names, and the bytes on its stack are the
rest of the path.
-/

namespace BadgerOS.Path

open Loop List

/-- A byte of the rest of a path, with the number of link targets it stands in. -/
abbrev Mark := Nat × Byte

def mark (k : Nat) (name : Name) : List Mark := name.map fun b => (k, b)

/-- What is found for a component. -/
inductive Found where
  | entered
  | followed
  /-- A last link that is not to be followed. -/
  | kept
  | file
  | absent
  deriving DecidableEq, Repr

structure Visit where
  depth : Nat
  name : Name
  found : Found
  deriving DecidableEq, Repr

/-- The first component of the rest of a path. -/
structure Splits (bytes : List Mark) (k : Nat) (name : Name) (rest : List Mark) : Prop where
  eq : bytes = mark k name ++ rest
  nonempty : name ≠ []
  plain : slash ∉ name
  ends : ∀ x, rest.head? = some x → x.2 = slash

/-- The entry that the rest of a path designates from directory `d`, and the
components that are visited on the way. -/
inductive Designates (t : Tree) (followLast : Bool) : Nat → List Mark → List Visit →
    Entry → Prop
  | done (d : Nat) : Designates t followLast d [] [] (.node d)
  | slash {d k : Nat} {rest : List Mark} {visits : List Visit} {e : Entry}
      (h : Designates t followLast d rest visits e) :
      Designates t followLast d ((k, Path.slash) :: rest) visits e
  | stay {d k : Nat} {bytes rest : List Mark} {visits : List Visit} {e : Entry}
      (split : Splits bytes k dot rest) (h : Designates t followLast d rest visits e) :
      Designates t followLast d bytes (⟨k, dot, .entered⟩ :: visits) e
  | up {d k : Nat} {bytes rest : List Mark} {visits : List Visit} {e : Entry}
      (split : Splits bytes k dotDot rest)
      (h : Designates t followLast ((t.parent d).getD d) rest visits e) :
      Designates t followLast d bytes (⟨k, dotDot, .entered⟩ :: visits) e
  | enter {d m k : Nat} {name : Name} {bytes rest : List Mark} {visits : List Visit} {e : Entry}
      (split : Splits bytes k name rest) (ordinary : name ≠ dot ∧ name ≠ dotDot)
      (child : t.child d name = some m) (kind : t.kind m = .directory)
      (h : Designates t followLast m rest visits e) :
      Designates t followLast d bytes (⟨k, name, .entered⟩ :: visits) e
  | follow {d m k : Nat} {name target : Name} {bytes rest : List Mark}
    {visits : List Visit} {e : Entry}
      (split : Splits bytes k name rest) (ordinary : name ≠ dot ∧ name ≠ dotDot)
      (child : t.child d name = some m) (kind : t.kind m = .symlink target)
      (more : rest ≠ [] ∨ followLast = true) (nonempty : target ≠ [])
      (h : Designates t followLast (if target.head? = some Path.slash then t.root else d)
        (mark (k + 1) target ++ rest) visits e) :
      Designates t followLast d bytes (⟨k, name, .followed⟩ :: visits) e
  | keep {d m k : Nat} {name target : Name} {bytes : List Mark}
      (split : Splits bytes k name []) (ordinary : name ≠ dot ∧ name ≠ dotDot)
      (child : t.child d name = some m) (kind : t.kind m = .symlink target)
      (last : followLast = false) :
      Designates t followLast d bytes [⟨k, name, .kept⟩] (.node m)
  | file {d m k : Nat} {name : Name} {bytes : List Mark}
      (split : Splits bytes k name []) (ordinary : name ≠ dot ∧ name ≠ dotDot)
      (child : t.child d name = some m) (kind : t.kind m = .file) :
      Designates t followLast d bytes [⟨k, name, .file⟩] (.node m)
  | absent {d k : Nat} {name : Name} {bytes : List Mark}
      (split : Splits bytes k name []) (ordinary : name ≠ dot ∧ name ≠ dotDot)
      (child : t.child d name = none) :
      Designates t followLast d bytes [⟨k, name, .absent⟩] (.negative d name)

/-- The entry that a path designates from directory `start`. -/
structure Resolves (t : Tree) (followLast : Bool) (start : Nat) (path : Name) (visits : List Visit)
    (e : Entry) : Prop where
  nonempty : path ≠ []
  designates : Designates t followLast (if path.head? = some slash then t.root else start)
    (mark 0 path) visits e

/-- How many links are followed. -/
def links (visits : List Visit) : Nat := visits.countP fun v => v.found = .followed

/-- The walker can pass the component: its name is not too long, a link leaves room
on the stack, a last link is followed, and what is absent is named by the path
itself and not by the target of a link. -/
def Visit.Walkable (v : Visit) : Prop :=
  v.name.length ≤ nameMax ∧ match v.found with
    | .followed => v.depth + 1 < linkMax
    | .kept => False
    | .absent => v.depth = 0
    | _ => True

/-! ### The stack of the walker -/

/-- The bytes on a stack. -/
def marks : List Name → List Mark
  | [] => []
  | name :: below => mark below.length name ++ marks below

/-- The rest of a name is empty or starts with a slash. -/
def AtSlash (name : Name) : Prop := ∀ b, name.head? = some b → b = slash

variable {k : Nat}

variable {name name' : Name} {x : Mark} {k' : Nat} {stack : List Name} {next : Entry} {s' : Walker}

theorem marks_cons_eq_nil {below : List Name} : marks (name :: below) = [] ↔ name = [] ∧
    marks below = [] := by
  rw [marks, append_eq_nil_iff, mark, map_eq_nil_iff]

/-- What is below a name starts with a slash, and there is some if the last link is
not to be followed. -/
def Sound (followLast : Bool) : List Name → Prop
  | [] => True
  | _ :: below => (∀ name ∈ below, AtSlash name) ∧
    (followLast = false → below ≠ [] → marks below ≠ []) ∧ Sound followLast below

variable {t : Tree} {followLast : Bool} {s : Walker} {d : Nat} {below : List Name}

theorem marks_head (slashed : ∀ name ∈ below, AtSlash name) (h : (marks below).head? = some x) :
    x.2 = slash := by
  induction below with
  | nil => cases h
  | cons name below ih =>
    rw [forall_mem_cons] at slashed
    cases name with
    | nil => exact ih slashed.2 h
    | cons b rest =>
      cases h
      exact slashed.1 b rfl

variable {rest : List Mark}

/-- A name and what is below it, cut at the first slash. -/
theorem cut_mark (k : Nat) (name : Name) (ends : ∀ x, rest.head? = some x → x.2 = slash) :
    (mark k name ++ rest).takeWhile (·.2 ≠ slash) = mark k (name.takeWhile (· ≠ slash)) ∧
      (mark k name ++ rest).dropWhile (·.2 ≠ slash) = mark k
        (name.dropWhile (· ≠ slash)) ++ rest := by
  induction name with
  | nil =>
    cases rest with
    | nil => exact ⟨rfl, rfl⟩
    | cons x rest => simp [mark, ends x rfl]
  | cons b name ih =>
    by_cases hb : b = slash
    · simp [mark, hb]
    · simpa [mark, hb] using ih

theorem mark_inj (h : mark k name = mark k' name') : name = name' := by
  have := congrArg (map Prod.snd) h
  simpa [mark] using this

variable {bytes : List Mark}

theorem Splits.cut (h : Splits bytes k name rest) :
    bytes.takeWhile (·.2 ≠ slash) = mark k name ∧ bytes.dropWhile (·.2 ≠ slash) = rest := by
  have all : ∀ b ∈ name, decide (b ≠ slash) = true := by
    intro b mem
    simp only [decide_eq_true_eq]
    rintro rfl
    exact h.plain mem
  have cut := cut_mark k name h.ends
  rw [← h.eq, takeWhile_eq_self_iff.mpr all, dropWhile_eq_nil_iff.mpr all] at cut
  exact cut

variable {comp : Name}

/-- The first component on a stack is that of the name on top. -/
theorem Splits.of_stack (slashed : ∀ name ∈ below, AtSlash name) (top : name ≠ [])
    (h : Splits (marks (name :: below)) k comp rest) :
    k = below.length ∧ name.takeWhile (· ≠ slash) = comp ∧
      marks (name.dropWhile (· ≠ slash) :: below) = rest := by
  have slashed : ∀ x, (marks below).head? = some x → x.2 = slash := fun x => marks_head slashed
  have cut := cut_mark below.length name slashed
  refine ⟨?_, ?_, ?_⟩
  · obtain ⟨b, name, rfl⟩ := exists_cons_of_ne_nil top
    obtain ⟨c, comp, rfl⟩ := exists_cons_of_ne_nil h.nonempty
    exact (congrArg Prod.fst (cons.inj h.eq).1).symm
  · exact mark_inj (cut.1.symm.trans h.cut.1)
  · exact cut.2.symm.trans h.cut.2

/-! ### A path designates one entry -/

theorem Splits.unique {rest' : List Mark} (h : Splits bytes k name rest)
    (h' : Splits bytes k' name' rest') : k = k' ∧ name = name' ∧ rest = rest' := by
  have names := h.cut.1.symm.trans h'.cut.1
  refine ⟨?_, mark_inj names, h.cut.2.symm.trans h'.cut.2⟩
  obtain ⟨b, name, rfl⟩ := exists_cons_of_ne_nil h.nonempty
  cases mark_inj names
  exact congrArg Prod.fst (cons.inj names).1

theorem Splits.head (h : Splits bytes k name rest) : ∃ x bytes', bytes = x :: bytes' ∧
    x.2 ≠ slash := by
  obtain ⟨b, name, rfl⟩ := exists_cons_of_ne_nil h.nonempty
  refine ⟨_, _, h.eq, ?_⟩
  rintro rfl
  exact h.plain mem_cons_self

variable {visits : List Visit} {e : Entry}

theorem Designates.unique {visits' : List Visit} {e' : Entry} (h : Designates t followLast d bytes
    visits e) (h' : Designates t followLast d bytes visits' e') :
    visits = visits' ∧ e = e' := by
  induction h generalizing visits' e' with
  | done d =>
    cases h' with
    | done => exact ⟨rfl, rfl⟩
    | stay split | up split | enter split | follow split | keep split | file split | absent split =>
      obtain ⟨_, _, h, -⟩ := split.head
      cases h
  | slash h ih =>
    cases h' with
    | slash h' => exact ih h'
    | stay split | up split | enter split | follow split | keep split | file split | absent split =>
      obtain ⟨_, _, h, other⟩ := split.head
      cases h
      exact absurd rfl other
  | _ =>
    -- the component is the same, and what is found for it decides the rule
    have : dot ≠ dotDot := by decide
    cases h' <;> grind [→ Splits.unique, → Splits.head]

/-! ### The walker follows the rules -/

/-- The walker is in directory `d`, and `bytes` is the rest of the path. -/
structure Tracks (t : Tree) (followLast : Bool) (s : Walker) (d : Nat)
    (bytes : List Mark) : Prop where
  loc : s.loc = .node d
  dir : t.kind d = .directory
  nonempty : s.stack ≠ []
  bytes_eq : marks s.stack = bytes
  sound : Sound followLast s.stack

/-- At the end of the path all names are popped. -/
theorem returns_of_end (hs : s.stack = stack) (nonempty : stack ≠ [])
    (none : marks stack = []) : Returns (walkStep t followLast) s (.ok s.loc) := by
  induction stack generalizing s with
  | nil => exact absurd rfl nonempty
  | cons name below ih =>
    obtain ⟨empty, none⟩ := marks_cons_eq_nil.mp none
    subst empty
    apply Continues.returns
    by_cases hb : below = []
    · simp [walkStep, hs, hb, Continues]
    · simp only [walkStep, hs, hb, if_false, Continues]
      exact ih rfl hb none

/-- Empty names are popped before the next byte is looked at. -/
theorem Tracks.popped (hs : s.stack = stack) (tr : Tracks t followLast s d (x :: bytes)) :
    ∃ name below, name ≠ [] ∧ Tracks t followLast { s with stack := name :: below } d (x ::
      bytes) ∧ ∀ {r}, Returns (walkStep t followLast) { s with stack := name :: below } r →
        Returns (walkStep t followLast) s r := by
  induction stack generalizing s with
  | nil => exact absurd hs tr.nonempty
  | cons name below ih =>
    cases name with
    | cons c cs =>
      refine ⟨c :: cs, below, nofun, ?_, ?_⟩
      · rw [← hs]
        exact tr
      · rw [← hs]
        exact id
    | nil =>
      have bytes_eq := tr.bytes_eq
      have sound := tr.sound
      rw [hs] at bytes_eq sound
      have hb : below ≠ [] := by
        rintro rfl
        cases bytes_eq
      have pop : walkStep t followLast s = .inl { s with stack := below } := by
        simp [walkStep, hs, hb]
      obtain ⟨name, below', top, tr', back⟩ := ih (s := { s with stack := below }) rfl
        ⟨tr.loc, tr.dir, hb, bytes_eq, sound.2.2⟩
      exact ⟨name, below', top, tr', fun h => .go pop (back h)⟩

/-- The walker skips a slash. -/
theorem Tracks.skip (tr : Tracks t followLast s d ((k, slash) :: rest)) :
    ∃ s', Tracks t followLast s' d rest ∧ s'.linksPassed = s.linksPassed ∧
      ∀ {r}, Returns (walkStep t followLast) s' r → Returns (walkStep t followLast) s r := by
  obtain ⟨name, below, top, tr', back⟩ := tr.popped rfl
  cases name with
  | nil => exact absurd rfl top
  | cons c cs =>
    obtain ⟨first, rest_eq⟩ := cons.inj tr'.bytes_eq
    have hc : c = slash := congrArg Prod.snd first
    refine ⟨{ s with stack := cs :: below }, ⟨tr.loc, tr.dir, nofun, rest_eq, tr'.sound⟩, rfl,
      ?_⟩
    intro r h
    apply back
    apply Returns.go _ h
    simp [walkStep, hc, tr.loc, Tree.type, tr.dir]

section

variable (tr : Tracks t followLast s d bytes) (split : Splits bytes k comp rest)
include tr split

/-- The walker looks up a component. -/
theorem Tracks.look (look : t.lookupImpl (.node d) comp = .ok next) :
    ∃ name below, k = below.length ∧ marks (name :: below) = rest ∧ AtSlash name ∧
      Sound followLast (name :: below) ∧ if comp.length ≤ nameMax then
        ∀ {r}, Continues (walkStep t followLast) r (arrive t followLast s next name below) →
          Returns (walkStep t followLast) s r
      else Returns (walkStep t followLast) s (.err .enametoolong) := by
  obtain ⟨x, bytes', cons, -⟩ := split.head
  rw [cons] at tr
  obtain ⟨name, below, top, tr', back⟩ := tr.popped rfl
  have split' : Splits (marks (name :: below)) k comp rest := by
    rw [show marks (name :: below) = bytes from tr'.bytes_eq.trans cons.symm]
    exact split
  obtain ⟨depth, take, drop⟩ := split'.of_stack tr'.sound.1 top
  refine ⟨name.dropWhile (· ≠ slash), below, depth, drop, ?_, tr'.sound, ?_⟩
  · intro b hb
    have := head?_dropWhile_not (· ≠ slash) name
    rw [hb] at this
    simpa using this
  · cases name with
    | nil => exact absurd rfl top
    | cons c cs =>
      have hc : c ≠ slash := by
        rintro rfl
        simp at take
        exact split.nonempty take
      split_ifs with short
      · intro r h
        apply back
        apply Continues.returns
        rw [← tr.loc] at look
        simp only [walkStep, hc, if_false, take, Nat.not_lt.mpr short, look]
        exact h
      · apply back
        apply Returns.stop
        simp only [walkStep, hc, if_false, take]
        rw [if_pos (Nat.lt_of_not_le short)]

/-- The walker goes on to directory `m`. -/
theorem Tracks.enter {m : Nat} (look : t.lookupImpl (.node d) comp = .ok (.node m))
    (dir : t.kind m = .directory)
    (next : ∀ s', Tracks t followLast s' m rest → s'.linksPassed = s.linksPassed →
    ∃ r, Returns (walkStep t followLast) s' r ∧ (r = .ok e ↔ ∀ v ∈ visits, v.Walkable)) :
    ∃ r, Returns (walkStep t followLast) s r ∧
      (r = .ok e ↔ ∀ v ∈ (⟨k, comp, .entered⟩ : Visit) :: visits, v.Walkable) := by
  obtain ⟨name, below, -, bytes_eq, -, sound, look⟩ := tr.look split look
  split_ifs at look with short
  · obtain ⟨r, returns, iff⟩ := next { s with loc := .node m, stack := name :: below }
      ⟨rfl, dir, nofun, bytes_eq, sound⟩ rfl
    refine ⟨r, look ?_, ?_⟩
    · simpa only [arrive, Tree.type, dir, Continues] using returns
    · simp [iff, Visit.Walkable, short]
  · refine ⟨_, look, ?_⟩
    simp [Visit.Walkable, short]

end

theorem lookup_ordinary (dir : t.kind d = .directory) (ordinary : name ≠ dot ∧ name ≠ dotDot) :
    t.lookupImpl (.node d) name = .ok (match t.child d name with
      | some m => .node m
      | none => .negative d name) := by
  cases hc : t.child d name <;> simp [Tree.lookupImpl, ordinary, dir, hc]

theorem lookup_dotDot : t.lookupImpl (.node d) dotDot = .ok (.node ((t.parent d).getD d)) := by
  cases hp : t.parent d <;> simp [Tree.lookupImpl, Tree.parentOf, dot, dotDot, hp]

theorem dotDot_dir (dir : t.kind d = .directory) : t.kind ((t.parent d).getD d) = .directory := by
  cases hp : t.parent d with
  | none => exact dir
  | some p => exact t.parent_dir hp

/-- The target of a link is put on the stack. -/
theorem Tracks.follow {first : Byte} {tail : Name} (tr : Tracks t followLast s d bytes)
    (atSlash : AtSlash name) (sound : Sound followLast (name :: below))
    (more : marks (name :: below) ≠ [] ∨ followLast = true) : Tracks t followLast
      { loc := if first = slash then .node t.root else s.loc
        stack := (first :: tail) :: name :: below
        linksPassed := s.linksPassed + 1 }
      (if (first :: tail).head? = some slash then t.root else d)
      (mark (below.length + 1) (first :: tail) ++ marks (name :: below)) := by
  constructor
  case loc => by_cases abs : first = slash <;> simp [abs, tr.loc]
  case dir => by_cases abs : first = slash <;> simp [abs, tr.dir, t.root_dir]
  case nonempty => nofun
  case bytes_eq => rfl
  case sound =>
    refine ⟨forall_mem_cons.mpr ⟨atSlash, sound.1⟩, fun last _ => ?_, sound⟩
    exact more.resolve_right (by simp [last])

section Component

variable {m k : Nat} {comp target : Name} {rest : List Mark} {visits : List Visit} {e : Entry}
variable (tr : Tracks t followLast s d bytes) (ordinary : comp ≠ dot ∧ comp ≠ dotDot)
include tr ordinary

/-- The walker goes on with the target of a link, if it has a place for it. -/
theorem Tracks.followed (split : Splits bytes k comp rest) (child : t.child d comp = some m)
    (kind : t.kind m = .symlink target) (more : rest ≠ [] ∨ followLast = true)
    (nonempty : target ≠ []) (passes : s.linksPassed < linkMax)
    (next : ∀ s', Tracks t followLast s' (if target.head? = some slash then t.root else d)
      (mark (k + 1) target ++ rest) → s'.linksPassed = s.linksPassed + 1 →
      ∃ r, Returns (walkStep t followLast) s' r ∧ (r = .ok e ↔ ∀ v ∈ visits, v.Walkable)) :
    ∃ r, Returns (walkStep t followLast) s r ∧
      (r = .ok e ↔ ∀ v ∈ (⟨k, comp, .followed⟩ : Visit) :: visits, v.Walkable) := by
  obtain ⟨name, below, rfl, rfl, atSlash, sound, look⟩ :=
    tr.look split (by rw [lookup_ordinary tr.dir ordinary, child])
  split_ifs at look with short
  · have goes : followLast = true ∨ below ≠ [] ∨ name ≠ [] := by
      rcases more with more | more
      · by_contra none
        simp only [not_or, not_not] at none
        exact more (marks_cons_eq_nil.mpr ⟨none.2.2, congrArg marks none.2.1⟩)
      · exact .inl more
    obtain ⟨first, tail, rfl⟩ := exists_cons_of_ne_nil nonempty
    by_cases room : below.length + 1 < linkMax
    · obtain ⟨r, returns, iff⟩ := next _ (tr.follow atSlash sound more) rfl
      refine ⟨r, look ?_, ?_⟩
      · simp only [arrive, Tree.type, kind, decide_eq_true_eq, goes, if_true,
          Nat.not_le.mpr passes, Nat.not_le.mpr room, if_false, Continues]
        exact returns
      · simp [iff, Visit.Walkable, short, room]
    · refine ⟨.panic, look ?_, ?_⟩
      · simp [arrive, Tree.type, kind, goes, Nat.not_le.mpr passes, Nat.not_lt.mp room, Continues]
      · simp [Visit.Walkable, room]
  · refine ⟨_, look, ?_⟩
    simp [Visit.Walkable, short]

/-- The walker stays in the directory of a link that is last and not followed. -/
theorem Tracks.kept (split : Splits bytes k comp []) (child : t.child d comp = some m)
    (kind : t.kind m = .symlink target) (last : followLast = false) :
    ∃ r, Returns (walkStep t followLast) s r ∧
      (r = .ok (.node m) ↔ ∀ v ∈ [(⟨k, comp, .kept⟩ : Visit)], v.Walkable) := by
  obtain ⟨name, below, depth, bytes_eq, -, sound, look⟩ :=
    tr.look split (by rw [lookup_ordinary tr.dir ordinary, child])
  split_ifs at look with short
  · obtain ⟨empty, none⟩ := marks_cons_eq_nil.mp bytes_eq
    have bottom : below = [] := by
      by_contra hb
      exact sound.2.1 last hb none
    subst empty bottom
    refine ⟨.ok s.loc, look ?_, ?_⟩
    · simp only [arrive, Tree.type, kind, last]
      exact returns_of_end rfl nofun rfl
    · have differ : d ≠ m := by
        rintro rfl
        rw [tr.dir] at kind
        cases kind
      simp [tr.loc, differ, Visit.Walkable]
  · refine ⟨_, look, ?_⟩
    simp [Visit.Walkable]

theorem Tracks.file (split : Splits bytes k comp []) (child : t.child d comp = some m)
    (kind : t.kind m = .file) :
    ∃ r, Returns (walkStep t followLast) s r ∧
      (r = .ok (.node m) ↔ ∀ v ∈ [(⟨k, comp, .file⟩ : Visit)], v.Walkable) := by
  obtain ⟨name, below, depth, bytes_eq, -, sound, look⟩ :=
    tr.look split (by rw [lookup_ordinary tr.dir ordinary, child])
  split_ifs at look with short
  · refine ⟨.ok (.node m), look ?_, ?_⟩
    · simp only [arrive, Tree.type, kind]
      exact returns_of_end rfl nofun bytes_eq
    · simp [Visit.Walkable, short]
  · refine ⟨_, look, ?_⟩
    simp [Visit.Walkable, short]

/-- A name that is absent is found absent, unless it ends the target of a link. -/
theorem Tracks.absent (split : Splits bytes k comp []) (child : t.child d comp = none) :
    ∃ r, Returns (walkStep t followLast) s r ∧
      (r = .ok (.negative d comp) ↔ ∀ v ∈ [(⟨k, comp, .absent⟩ : Visit)], v.Walkable) := by
  obtain ⟨name, below, depth, bytes_eq, -, sound, look⟩ :=
    tr.look split (by rw [lookup_ordinary tr.dir ordinary, child])
  split_ifs at look with short
  · obtain ⟨empty, none⟩ := marks_cons_eq_nil.mp bytes_eq
    subst empty
    by_cases bottom : below = []
    · subst bottom
      refine ⟨.ok (.negative d comp), look ?_, ?_⟩
      · exact returns_of_end rfl nofun rfl
      · simp [Visit.Walkable, short, depth]
    · refine ⟨.err .enoent, look ?_, ?_⟩
      · simp [arrive, Tree.type, bottom, Continues]
      · simp [Visit.Walkable, depth, bottom]
  · refine ⟨_, look, ?_⟩
    simp [Visit.Walkable, short]

end Component

/-- The walker returns what the path designates exactly if it can pass every
component. -/
theorem walker_returns (h : Designates t followLast d bytes visits e) :
    ∀ {s}, Tracks t followLast s d bytes → s.linksPassed + links visits ≤ linkMax →
      ∃ r, Returns (walkStep t followLast) s r ∧
        (r = .ok e ↔ ∀ v ∈ visits, v.Walkable) := by
  induction h with
  | done d =>
    intro s tr _
    refine ⟨_, returns_of_end rfl tr.nonempty tr.bytes_eq, ?_⟩
    simp [tr.loc]
  | slash _ ih =>
    intro s tr few
    obtain ⟨s', tr', same, back⟩ := tr.skip
    obtain ⟨r, returns, iff⟩ := ih tr' (by rw [same]; exact few)
    exact ⟨r, back returns, iff⟩
  | stay split _ ih =>
    intro s tr few
    apply tr.enter split (by simp [Tree.lookupImpl]) tr.dir
    intro s' tr' same
    exact ih tr' (by simpa [same, links] using few)
  | up split _ ih =>
    intro s tr few
    apply tr.enter split lookup_dotDot (dotDot_dir tr.dir)
    intro s' tr' same
    exact ih tr' (by simpa [same, links] using few)
  | enter split ordinary child kind _ ih =>
    intro s tr few
    apply tr.enter split (by rw [lookup_ordinary tr.dir ordinary, child]) kind
    intro s' tr' same
    exact ih tr' (by simpa [same, links] using few)
  | follow split ordinary child kind more nonempty _ ih =>
    intro s tr few
    apply tr.followed ordinary split child kind more nonempty (by simp [links] at few; omega)
    intro s' tr' same
    exact ih tr' (by simp [links, same] at few ⊢; omega)
  | keep split ordinary child kind last =>
    intro s tr _
    exact tr.kept ordinary split child kind last
  | file split ordinary child kind =>
    intro s tr _
    exact tr.file ordinary split child kind
  | absent split ordinary child =>
    intro s tr _
    exact tr.absent ordinary split child

/-- `walk_unlocked` returns an outcome. -/
def Walks (t : Tree) (loc : Entry) (path : Name) (followLast : Bool) (r : Outcome) : Prop :=
  ∃ fuel, walk t fuel loc path followLast = some r

theorem walks_iff {loc : Entry} {path : Name} {r : Outcome} (h : walkStart t loc path = .inl s) :
    Walks t loc path followLast r ↔ Returns (walkStep t followLast) s r := by
  unfold Walks walk
  rw [h]
  rfl

/-! ### Every walk ends -/

/-- The links that may still be followed, and the bytes and names on the stack. -/
def Walker.work (s : Walker) : Nat × Nat :=
  (linkMax - s.linksPassed, (s.stack.map List.length).sum + s.stack.length)

theorem arrive_work {rest : Name}
    (less : rest.length + (below.map length).sum + (below.length + 1) <
      (s.stack.map length).sum + s.stack.length)
    (h : arrive t followLast s next rest below = .inl s') :
    Prod.Lex (· < ·) (· < ·) s'.work s.work := by
  have same : ∀ {loc}, Prod.Lex (· < ·) (· < ·)
      (Walker.work ⟨loc, rest :: below, s.linksPassed⟩) s.work := by
    intro loc
    apply Prod.Lex.right
    simpa using less
  dsimp only [arrive] at h
  split at h
  case h_1 =>
    split at h <;> cases h
    exact same
  case h_2 =>
    split at h
    case isFalse =>
      cases h
      exact same
    case isTrue =>
      split at h
      · cases h
      · split at h
        · cases h
        · split at h <;> cases h
          apply Prod.Lex.left
          dsimp only
          omega
  case h_3 =>
    cases h
    exact same

theorem walkStep_work (h : walkStep t followLast s = .inl s') :
    Prod.Lex (· < ·) (· < ·) s'.work s.work := by
  unfold walkStep at h
  split at h
  · cases h
  · rename_i below hs
    split at h <;> cases h
    apply Prod.Lex.right
    simp [hs]
  · rename_i c cs below hs
    split at h
    · split at h <;> cases h
      apply Prod.Lex.right
      simp [hs]
    · rename_i hc
      dsimp only at h
      split at h
      · cases h
      · split at h
        · cases h
        · apply arrive_work _ h
          have := (dropWhile_sublist (fun b => decide (b ≠ slash)) (l := cs)).length_le
          simp [hs, hc] at this ⊢
          omega

theorem walk_returns (t : Tree) (loc : Entry) (path : Name) (followLast : Bool) :
    ∃ r, Walks t loc path followLast r := by
  cases hs : walkStart t loc path with
  | inr r => exact ⟨r, 0, by rw [walk, hs]⟩
  | inl s =>
    have smaller : ∀ {s s'}, walkStep t followLast s = .inl s' → _ := walkStep_work
    obtain ⟨r, fuel, run⟩ := returns_of_measure Walker.work smaller s
    exact ⟨r, (walks_iff hs).mpr ⟨fuel, run⟩⟩

/-! ### What a walk returns -/

/-- A walk starts with the whole path. -/
theorem Tracks.start {start : Nat} {first : Byte} {tail : Name} (dir : t.kind start = .directory) :
    Tracks t followLast
    ⟨if first = slash then .node t.root else .node start, [first :: tail], 0⟩
    (if (first :: tail).head? = some slash then t.root else start) (mark 0 (first :: tail)) := by
  constructor
  case loc => by_cases abs : first = slash <;> simp [abs]
  case dir => by_cases abs : first = slash <;> simp [abs, dir, t.root_dir]
  case nonempty => nofun
  case bytes_eq => simp [marks]
  case sound => simp [Sound]

/-- If a short path designates an entry with few enough links, `walk_unlocked`
returns that entry exactly if it can pass every component. -/
theorem walk_meets_resolution {start : Nat} {path : Name} (dir : t.kind start = .directory)
    (short : path.length ≤ pathMax) (h : Resolves t followLast start path visits e)
    (few : links visits ≤ linkMax) :
    Walks t (.node start) path followLast (.ok e) ↔ ∀ v ∈ visits, v.Walkable := by
  obtain ⟨first, tail, rfl⟩ := exists_cons_of_ne_nil h.nonempty
  obtain ⟨r, returns, iff⟩ := walker_returns h.designates (.start dir) (by simpa using few)
  rw [← iff]
  rw [walks_iff (by rw [walkStart, if_neg (Nat.not_lt.mpr short)])]
  constructor
  · exact fun other => returns.unique other
  · rintro rfl
    exact returns

/-- A last component. -/
theorem Splits.last (eq : bytes = mark k name) (nonempty : name ≠ []) (plain : slash ∉ name) :
    Splits bytes k name [] :=
  ⟨eq.trans (append_nil _).symm, nonempty, plain, nofun⟩

/-- The root has a file `f`, a link `l` to it and a link `n` to the absent `x`. -/
def sample : Tree where
  root := 0
  kind n := match n with
    | 0 => .directory
    | 1 => .symlink [102]
    | 3 => .symlink [120]
    | _ => .file
  parent n := if n = 0 then none else some 0
  child n name := match n, name with
    | 0, [108] => some 1
    | 0, [102] => some 2
    | 0, [110] => some 3
    | _, _ => none
  root_dir := rfl
  parent_dir {n p} h := by
    obtain ⟨-, ⟨⟩⟩ := Option.ite_none_left_eq_some.mp h
    rfl

theorem sample_link : Designates sample true 0 (mark 0 [108])
    [⟨0, [108], .followed⟩, ⟨1, [102], .file⟩] (.node 2) := by
  apply Designates.follow (.last rfl (by decide) (by decide)) (by decide) rfl rfl
    (.inr rfl) (by decide)
  exact .file (.last rfl (by decide) (by decide)) (by decide) rfl rfl

theorem sample_kept : Designates sample false 0 (mark 0 [108]) [⟨0, [108], .kept⟩] (.node 1) :=
  .keep (.last rfl (by decide) (by decide)) (by decide) rfl rfl rfl

theorem sample_dangling : Designates sample true 0 (mark 0 [110])
    [⟨0, [110], .followed⟩, ⟨1, [120], .absent⟩] (.negative 0 [120]) := by
  apply Designates.follow (.last rfl (by decide) (by decide)) (by decide) rfl rfl
    (.inr rfl) (by decide)
  exact .absent (.last rfl (by decide) (by decide)) (by decide) rfl

theorem walk_meets_resolution_link : ∃ visits, Resolves sample true 0 [108] visits (.node 2) ∧
    links visits = 1 ∧ Walks sample (.node 0) [108] true (.ok (.node 2)) := by
  have resolves : Resolves sample true 0 [108] _ (.node 2) := ⟨nofun, sample_link⟩
  refine ⟨_, resolves, rfl, (walk_meets_resolution rfl (by decide) resolves (by decide)).mpr ?_⟩
  simp [Visit.Walkable, nameMax, linkMax]

/-- The root has a file and `LINK_MAX` links, each to the next and the last one to
the file. -/
def chain : Tree where
  root := 0
  kind n := if n = 0 then .directory else if n ≤ linkMax then .symlink
    [BitVec.ofNat 8 (65 + n)] else .file
  parent n := if n = 0 then none else some 0
  child n name := match n, name with
    | 0, [b] => some (b.toNat - 64)
    | _, _ => none
  root_dir := rfl
  parent_dir {n p} h := by
    obtain ⟨-, ⟨⟩⟩ := Option.ite_none_left_eq_some.mp h
    rfl

/-- From `n` links before the file on, the chain leads to the file. -/
theorem chain_designates {n : Nat} (k : Nat) (h : n ≤ linkMax) : ∃ visits,
    Designates chain true 0 (mark k [BitVec.ofNat 8 (97 - n)]) visits (.node 33) ∧
      links visits = n := by
  induction n generalizing k with
  | zero =>
    exact ⟨_, .file (.last rfl nofun (by decide)) (by decide) rfl rfl, rfl⟩
  | succ n ih =>
    have h : n + 1 ≤ 32 := h
    obtain ⟨visits, rest, count⟩ := ih (k + 1) (show n ≤ 32 by omega)
    have byte : (BitVec.ofNat 8 (97 - (n + 1))).toNat = 97 - (n + 1) := by
      rw [BitVec.toNat_ofNat]
      omega
    have other : ∀ b : Byte, b.toNat < 64 → BitVec.ofNat 8 (97 - (n + 1)) ≠ b := by
      rintro b small rfl
      omega
    have kind : chain.kind (97 - (n + 1) - 64) = .symlink [BitVec.ofNat 8 (97 - n)] := by
      have link : 97 - (n + 1) - 64 ≤ linkMax := show _ ≤ 32 by omega
      simp only [chain]
      rw [if_neg (by omega), if_pos link, show 65 + (97 - (n + 1) - 64) = 97 - n by omega]
    have split : Splits (mark k [BitVec.ofNat 8 (97 - (n + 1))]) k
        [BitVec.ofNat 8 (97 - (n + 1))] [] := by
      apply Splits.last rfl
      · simp
      · simpa [eq_comm] using other slash (by decide)
    have child : chain.child 0 [BitVec.ofNat 8 (97 - (n + 1))] = some (97 - (n + 1) - 64) := by
      simp only [chain, byte]
    have start : (if [BitVec.ofNat 8 (97 - n)].head? = some slash then chain.root else 0) = 0 :=
      ite_self 0
    have followed : Designates chain true 0 (mark k [BitVec.ofNat 8 (97 - (n + 1))])
        (⟨k, [BitVec.ofNat 8 (97 - (n + 1))], .followed⟩ :: visits) (.node 33) := by
      apply Designates.follow split _ child kind (.inr rfl) (by simp)
      · rw [start, append_nil]
        exact rest
      · constructor
        · simpa [dot] using other 46 (by decide)
        · simp [dotDot]
    refine ⟨_, followed, ?_⟩
    simpa [links] using count

theorem not_walk_meets_resolution : (∃ visits, Resolves sample false 0 [108] visits (.node 1) ∧
    links visits = 0 ∧
      Walks sample (.node 0) [108] false (.ok (.node 0))) ∧
    (∃ visits, Resolves sample true 0 [110] visits (.negative 0 [120]) ∧ links visits = 1 ∧
      Walks sample (.node 0) [110] true (.err .enoent)) ∧
    (∃ visits, Resolves chain true 0 [65] visits (.node 33) ∧ links visits = linkMax ∧
      Walks chain (.node 0) [65] true .panic) := by
  refine ⟨⟨_, ⟨nofun, sample_kept⟩, rfl, 3, by decide +kernel⟩,
    ⟨_, ⟨nofun, sample_dangling⟩, rfl, 3, by decide +kernel⟩, ?_⟩
  obtain ⟨visits, designates, count⟩ := chain_designates 0 le_rfl
  exact ⟨visits, ⟨nofun, designates⟩, count, 100, by decide +kernel⟩

end BadgerOS.Path
