import BadgerOS.Vfs.Resolution

/-!
# What a walk that succeeds returns

If `walk_unlocked` succeeds, the path designates an entry, and that entry is
returned unless it is a last symbolic link that is not to be followed.
-/

namespace BadgerOS.Path

open Loop List

variable {t : Tree} {followLast : Bool} {s : Walker} {d : Nat} {name : Name} {below : List Name}

/-- What is returned for an entry that a path designates. For a last link that is not
followed it is the directory of the link. -/
inductive Reached (t : Tree) : Entry → Entry → Prop
  | entry {e : Entry} (h : ∀ target, t.type e ≠ some (.symlink target)) : Reached t e e
  | keep {d m : Nat} {name target : Name} (child : t.child d name = some m)
      (kind : t.kind m = .symlink target) : Reached t (.node m) (.node d)

variable {c : Byte} {cs : Name} {bytes : List Mark}

theorem Splits.of_top (hc : c ≠ slash) (slashed : ∀ name ∈ below, AtSlash name) :
    Splits (marks ((c :: cs) :: below)) below.length ((c :: cs).takeWhile (· ≠ slash))
      (marks ((c :: cs).dropWhile (· ≠ slash) :: below)) := by
  constructor
  case eq =>
    rw [marks, marks, ← append_assoc, mark, mark, mark, ← map_append,
      takeWhile_append_dropWhile]
  case nonempty => simp [hc]
  case plain =>
    intro mem
    simpa using mem_takeWhile_imp mem
  case ends =>
    intro x hx
    cases hd : (c :: cs).dropWhile (· ≠ slash) with
    | nil =>
      rw [hd] at hx
      exact marks_head slashed hx
    | cons b rest =>
      have := List.head?_dropWhile_not (· ≠ slash) (c :: cs)
      rw [hd] at this hx
      cases hx
      simpa using this

variable {fuel : Nat} {x : Entry}

/-- After an entry that is not a directory the path is at its end. -/
theorem end_of_not_dir (notDir : t.type s.loc ≠ some .directory)
    (slashed : ∀ name ∈ s.stack, AtSlash name)
    (h : loop (walkStep t followLast) fuel s = some (.ok x)) :
    marks s.stack = [] ∧ x = s.loc := by
  induction fuel generalizing s with
  | zero => cases h
  | succ fuel ih =>
    rw [loop] at h
    cases hs : s.stack with
    | nil => simp [walkStep, hs] at h
    | cons first below =>
      rw [hs, forall_mem_cons] at slashed
      cases first with
      | nil =>
        by_cases hb : below = []
        · simp only [walkStep, hs, hb, if_true, Option.some.injEq, Outcome.ok.injEq] at h
          exact ⟨by rw [hb]; rfl, h.symm⟩
        · simp only [walkStep, hs, hb, if_false] at h
          exact ih (s := { s with stack := below }) notDir slashed.2 h
      | cons c cs =>
        have hc := slashed.1 c rfl
        cases ht : t.type s.loc with
        | none => simp [walkStep, hs, hc, ht] at h
        | some kind =>
          cases kind with
          | directory => exact absurd ht notDir
          | symlink target | file => simp [walkStep, hs, hc, ht] at h

/-- The turn of the walker that looks up a component, if it succeeds in the end. -/
theorem component (tr : Tracks t followLast s d bytes) (hs : s.stack = (c :: cs) :: below)
    (hc : c ≠ slash) (split : Splits bytes below.length ((c :: cs).takeWhile (· ≠ slash))
      (marks ((c :: cs).dropWhile (· ≠ slash) :: below)))
    (h : loop (walkStep t followLast) (fuel + 1) s = some (.ok x))
    (ih : ∀ {s d bytes}, Tracks t followLast s d bytes →
    loop (walkStep t followLast) fuel s = some (.ok x) →
      ∃ visits e, Designates t followLast d bytes visits e ∧ Reached t e x) :
    ∃ visits e, Designates t followLast d bytes visits e ∧ Reached t e x := by
  have sound := tr.sound
  rw [hs] at sound
  rw [loop] at h
  simp only [walkStep, hs, hc, if_false] at h
  generalize (c :: cs).takeWhile (· ≠ slash) = comp at h split
  have slashed : AtSlash ((c :: cs).dropWhile (· ≠ slash)) := by
    intro b hb
    have := List.head?_dropWhile_not (· ≠ slash) (c :: cs)
    rw [hb] at this
    simpa using this
  generalize (c :: cs).dropWhile (· ≠ slash) = rest at h split slashed
  split_ifs at h with long
  · cases h
  have enter {m : Nat} (look : t.lookupImpl (.node d) comp = .ok (.node m))
    (dir : t.kind m = .directory) :
      ∃ visits e, Designates t followLast m (marks (rest :: below)) visits e ∧
          Reached t e x := by
    simp only [tr.loc, look, arrive, Tree.type, dir] at h
    exact ih (s := { s with loc := .node m, stack := rest :: below })
      ⟨rfl, dir, cons_ne_nil _ _, rfl, sound⟩ h
  by_cases hdot : comp = dot
  · subst hdot
    obtain ⟨visits, e, designates, reached⟩ := enter (by simp [Tree.lookupImpl]) tr.dir
    exact ⟨_, e, .stay split designates, reached⟩
  by_cases hdotDot : comp = dotDot
  · subst hdotDot
    obtain ⟨visits, e, designates, reached⟩ := enter lookup_dotDot (dotDot_dir tr.dir)
    exact ⟨_, e, .up split designates, reached⟩
  have look := lookup_ordinary tr.dir ⟨hdot, hdotDot⟩
  cases child : t.child d comp with
  | none =>
    rw [child] at look
    simp only [tr.loc, look, arrive, Tree.type] at h
    split_ifs at h with more
    · cases h
    simp only [decide_eq_true_eq, not_or, not_not] at more
    obtain ⟨rfl, rfl⟩ := more
    obtain ⟨-, rfl⟩ := end_of_not_dir (by simp [Tree.type]) (by simp [AtSlash]) h
    refine ⟨_, _, .absent split ⟨hdot, hdotDot⟩ child, .entry ?_⟩
    simp [Tree.type]
  | some m =>
    rw [child] at look
    cases kind : t.kind m with
    | directory =>
      obtain ⟨visits, e, designates, reached⟩ := enter look kind
      exact ⟨_, e, .enter split ⟨hdot, hdotDot⟩ child kind designates, reached⟩
    | file =>
      simp only [tr.loc, look, arrive, Tree.type, kind] at h
      obtain ⟨ends, rfl⟩ :=
        end_of_not_dir (by simp [Tree.type, kind]) (forall_mem_cons.mpr ⟨slashed, sound.1⟩) h
      rw [ends] at split
      refine ⟨_, _, .file split ⟨hdot, hdotDot⟩ child kind, .entry ?_⟩
      simp [Tree.type, kind]
    | symlink target =>
      simp only [tr.loc, look, arrive, Tree.type, kind] at h
      split_ifs at h with goes passed room
      · cases h
      · cases h
      · cases target with
        | nil => cases h
        | cons first tail =>
          have more : marks (rest :: below) ≠ [] ∨ followLast = true := by
            by_contra none
            simp only [not_or, not_not, Bool.not_eq_true, marks_cons_eq_nil] at none
            obtain ⟨⟨empty, none⟩, last⟩ := none
            by_cases hb : below = []
            · simp [last, empty, hb] at goes
            · exact sound.2.1 last hb none
          rw [← tr.loc] at h
          obtain ⟨visits, e, designates, reached⟩ := ih (tr.follow slashed sound more) h
          exact ⟨_, e, .follow split ⟨hdot, hdotDot⟩ child kind more (cons_ne_nil _ _)
            designates, reached⟩
      · simp only [decide_eq_true_eq, not_or, not_not, Bool.not_eq_true] at goes
        obtain ⟨last, rfl, rfl⟩ := goes
        obtain ⟨fuel, rfl⟩ : ∃ n, fuel = n + 1 := by
          cases fuel with
          | zero => cases h
          | succ n => exact ⟨n, rfl⟩
        simp only [loop, walkStep, if_true, Option.some.injEq, Outcome.ok.injEq] at h
        subst h
        exact ⟨_, _, .keep split ⟨hdot, hdotDot⟩ child kind last, .keep child kind⟩

/-- If the walker succeeds, the rest of the path designates an entry. -/
theorem walker_sound (tr : Tracks t followLast s d bytes)
    (h : loop (walkStep t followLast) fuel s = some (.ok x)) :
    ∃ visits e, Designates t followLast d bytes visits e ∧ Reached t e x := by
  induction fuel generalizing s d bytes with
  | zero => cases h
  | succ fuel ih =>
    have bytes_eq := tr.bytes_eq
    have sound := tr.sound
    cases hs : s.stack with
    | nil => exact absurd hs tr.nonempty
    | cons first below =>
      rw [hs] at bytes_eq sound
      cases first with
      | nil =>
        by_cases hb : below = []
        · simp only [loop, walkStep, hs, hb, if_true, Option.some.injEq, Outcome.ok.injEq] at h
          rw [hb] at bytes_eq
          cases bytes_eq
          refine ⟨[], .node d, .done d, ?_⟩
          rw [← h, tr.loc]
          apply Reached.entry
          simp [Tree.type, tr.dir]
        · simp only [loop, walkStep, hs, hb, if_false] at h
          exact ih (s := { s with stack := below }) ⟨tr.loc, tr.dir, hb, bytes_eq, sound.2.2⟩ h
      | cons c cs =>
        by_cases hc : c = slash
        · simp only [loop, walkStep, hs, hc, if_true, tr.loc, Tree.type, tr.dir] at h
          rw [marks, mark, map_cons, hc, cons_append] at bytes_eq
          obtain ⟨visits, e, designates, reached⟩ :=
            ih (s := { s with stack := cs :: below, loc := .node d })
              ⟨rfl, tr.dir, cons_ne_nil _ _, rfl, sound⟩ h
          rw [← bytes_eq]
          exact ⟨visits, e, designates.slash, reached⟩
        · have split : Splits (marks ((c :: cs) :: below)) _ _ _ := .of_top hc sound.1
          rw [bytes_eq] at split
          exact component tr hs hc split h fun tr' h' => ih tr' h'

theorem Walks.sound {start : Nat} {path : Name} (dir : t.kind start = .directory)
    (h : Walks t (.node start) path followLast (.ok x)) :
    ∃ visits e, Resolves t followLast start path visits e ∧ Reached t e x := by
  obtain ⟨fuel, h⟩ := h
  unfold walk walkStart at h
  by_cases long : path.length > pathMax
  · rw [if_pos long] at h
    cases h
  rw [if_neg long] at h
  cases path with
  | nil => cases h
  | cons first tail =>
    obtain ⟨visits, e, designates, reached⟩ := walker_sound (.start dir) h
    exact ⟨visits, e, ⟨nofun, designates⟩, reached⟩

/-- A walk that succeeds ends where the path leads. -/
theorem Walks.designated (dir : t.kind start = .directory)
    (h : Walks t (.node start) path followLast (.ok x))
    (leads : Resolves t followLast start path visits e) : Reached t e x := by
  obtain ⟨_, _, found, reached⟩ := h.sound dir
  rwa [(leads.designates.unique found.designates).2]

/-- A link is followed to its file, and is not. -/
theorem designated_link :
    (Walks sample (.node 0) [108] true (.ok (.node 2)) ∧ Reached sample (.node 2) (.node 2)) ∧
    (Walks sample (.node 0) [108] false (.ok (.node 0)) ∧
    Reached sample (.node 1) (.node 0)) := by
  have followed : Walks sample (.node 0) [108] true (.ok (.node 2)) := ⟨9, rfl⟩
  have kept : Walks sample (.node 0) [108] false (.ok (.node 0)) := ⟨9, rfl⟩
  exact ⟨⟨followed, followed.designated rfl ⟨by simp, sample_link⟩⟩, kept,
    kept.designated rfl ⟨by simp, sample_kept⟩⟩

end BadgerOS.Path
