import BadgerOS.Vfs.Resolution

/-!
# The links of a walk

A resolution without limits follows every link it meets. `walk_unlocked` counts the
links that it has followed, and keeps the names that it still has to finish in a
stack of `LINK_MAX` places: the count is checked, the place is not.
-/

namespace BadgerOS.Path

open Loop Relation

variable {t : Tree} {followLast : Bool} {s s' start : Walker} {target rest path : Name}
  {below : List Name} {loc : Entry} {r : Outcome}

/-- The link that is followed next: its target, what is left of the name it was met
in and what is below that name. -/
def nextLink (t : Tree) (followLast : Bool) (s : Walker) : Option (Name × Name × List Name) :=
  match s.stack with
  | (c :: cs) :: below =>
    let rest := (c :: cs).dropWhile (· ≠ slash)
    let component := (c :: cs).takeWhile (· ≠ slash)
    if c = slash ∨ component.length > nameMax then none
    else match t.lookupImpl s.loc component with
      | .ok (.node n) => match t.kind n with
        | .symlink target => if followLast ∨ below ≠ [] ∨
          rest ≠ [] then some (target, rest, below) else none
        | _ => none
      | _ => none
  | _ => none

/-- A turn without limits. -/
def resolveStep (t : Tree) (followLast : Bool) (s : Walker) : Walker ⊕ Outcome :=
  match nextLink t followLast s with
  | none => walkStep t followLast s
  | some ([], _, _) => .inr (.err .enoent)
  | some (first :: tail, rest, below) => .inl
    { loc := if first = slash then .node t.root else s.loc
      stack := (first :: tail) :: rest :: below
      linksPassed := s.linksPassed + 1 }

/-- Turns without limits lead from one state to another. -/
def Resolving (t : Tree) (followLast : Bool) : Walker → Walker → Prop :=
  ReflTransGen fun s s' => resolveStep t followLast s = .inl s'

section

variable (t : Tree) (loc : Entry) (path : Name) (followLast : Bool)

/-- Resolving the path comes to a link where `P` holds. -/
def MeetsLink (P : Walker → Prop) : Prop :=
  ∃ start s, walkStart t loc path = .inl start ∧ Resolving t followLast start s ∧
    nextLink t followLast s ≠ none ∧ P s

/-- Resolving the path would follow more than `LINK_MAX` links. -/
def TooManyLinks : Prop := MeetsLink t loc path followLast fun s => s.linksPassed = linkMax

/-- A link that may still be followed is met when no place of the stack is free. -/
def Overfull : Prop := MeetsLink t loc path followLast fun s => s.linksPassed < linkMax ∧
    linkMax ≤ s.stack.length

/-- The walk ends without an index outside of the stack, and with `EMLINK` exactly if
there are too many links. -/
def LinksBounded : Prop :=
  ∃ r, Walks t loc path followLast r ∧ r ≠ .panic ∧
    (r = .err .emlink ↔ TooManyLinks t loc path followLast)

end

/-! ### A turn with limits and one without -/

theorem walkStep_of_link (h : nextLink t followLast s = some (target, rest, below)) :
    walkStep t followLast s =
      if linkMax ≤ s.linksPassed then .inr (.err .emlink)
      else if linkMax ≤ s.stack.length then .inr .panic else resolveStep t followLast s := by
  unfold resolveStep
  rw [h]
  unfold nextLink at h
  split at h
  case h_2 => cases h
  case h_1 c cs below' stack =>
    dsimp only at h
    split at h
    · cases h
    · rename_i ordinary
      obtain ⟨noSlash, short⟩ := not_or.mp ordinary
      split at h
      case h_2 => cases h
      case h_1 n look =>
        split at h
        case h_2 => cases h
        case h_1 kind =>
          obtain ⟨follow, ⟨⟩⟩ := Option.ite_none_right_eq_some.mp h
          simp only [walkStep, stack, if_neg noSlash, if_neg short, look, arrive, Tree.type, kind]
          rw [if_pos (by simpa only [decide_eq_true_eq] using follow)]
          cases target <;> rfl

theorem lookup_error {name : Name} {e : Errno} (h : t.lookupImpl loc name = .error e) :
    e = .enotdir := by
  unfold Tree.lookupImpl at h
  grind

/-- The outcome of a turn in which no link is followed. -/
def Mild (s : Walker) : Walker ⊕ Outcome → Prop
  | .inl s' => s'.stack ≠ [] ∧ s'.linksPassed = s.linksPassed
  | .inr r => r ≠ .panic ∧ r ≠ .err .emlink

theorem walkStep_of_no_link (h : nextLink t followLast s = none) (nonempty : s.stack ≠ []) :
    Mild s (walkStep t followLast s) := by
  unfold nextLink at h
  unfold walkStep
  split
  · contradiction
  · split
    · simp [Mild]
    · exact ⟨‹_›, rfl⟩
  · rename_i c cs below stack
    simp only [stack] at h
    split
    · split <;> simp [Mild]
    · rename_i noSlash
      dsimp only
      split
      · simp [Mild]
      · rename_i short
        rw [if_neg (not_or.mpr ⟨noSlash, short⟩)] at h
        cases look : t.lookupImpl s.loc _ with
        | error e =>
          cases lookup_error look
          simp [Mild]
        | ok next =>
          rw [look] at h
          cases next <;> grind [arrive, Tree.type, Mild]

theorem resolveStep_links (h : resolveStep t followLast s = .inl s') : s'.stack ≠ [] ∧
    s'.linksPassed = s.linksPassed + if (nextLink t followLast s).isSome then 1 else 0 := by
  unfold resolveStep at h
  split at h
  case h_1 link =>
    have nonempty : s.stack ≠ [] := by
      intro empty
      simp [walkStep, empty] at h
    simpa [h, link, Mild] using walkStep_of_no_link link nonempty
  case h_2 => cases h
  case h_3 link =>
    cases h
    simp [link]

/-! ### Where the walk leaves the resolution -/

/-- The walk goes along the resolution up to `LINK_MAX` links, unless it panics before. -/
theorem returns_of_resolves (h : Resolving t followLast start s) (few : s.linksPassed ≤ linkMax) :
    Returns (walkStep t followLast) start .panic ∨
      ∀ r, Returns (walkStep t followLast) s r → Returns (walkStep t followLast) start r := by
  induction h with
  | refl => exact .inr fun _ returns => returns
  | @tail s s' _ step ih =>
    have counted := (resolveStep_links step).2
    obtain panics | along := ih (by omega)
    · exact .inl panics
    cases link : nextLink t followLast s with
    | none =>
      rw [resolveStep, link] at step
      exact .inr fun r returns => along r (.go step returns)
    | some l =>
      rw [link] at counted
      have turn := walkStep_of_link link
      rw [if_neg (by simp at counted; omega), step] at turn
      split at turn
      · exact .inl (along _ (.stop turn))
      · exact .inr fun r returns => along r (.go turn returns)

/-- A walk that panics met a full stack, and one that fails with `EMLINK` met too many links. -/
theorem link_of_returns (h : walkStart t loc path = .inl start)
    (returns : Returns (walkStep t followLast) start r) :
    (r = .panic → Overfull t loc path followLast) ∧
    (r = .err .emlink → TooManyLinks t loc path followLast) := by
  obtain ⟨fuel, run⟩ := returns
  apply loop_invariant (I := fun s => Resolving t followLast start s ∧ s.stack ≠ [] ∧
    s.linksPassed ≤ linkMax)
    _ _ run
  · have begun : start.stack ≠ [] ∧ start.linksPassed = 0 := by
      unfold walkStart at h
      grind
    exact ⟨.refl, begun.1, begun.2.trans_le (Nat.zero_le _)⟩
  · rintro s s' ⟨reached, nonempty, few⟩ turn
    have step : resolveStep t followLast s = .inl s' := by
      cases link : nextLink t followLast s with
      | none => rw [resolveStep, link, turn]
      | some l => grind [walkStep_of_link link]
    obtain ⟨kept, counted⟩ := resolveStep_links step
    refine ⟨reached.tail step, kept, ?_⟩
    cases link : nextLink t followLast s with
    | none => simpa [counted, link] using few
    | some l => grind [walkStep_of_link link]
  · rintro s r ⟨reached, nonempty, few⟩ turn
    cases link : nextLink t followLast s with
    | none =>
      have mild := walkStep_of_no_link link nonempty
      rw [turn] at mild
      exact ⟨(absurd · mild.1), (absurd · mild.2)⟩
    | some l =>
      have met : nextLink t followLast s ≠ none := by simp [link]
      rw [walkStep_of_link link] at turn
      split at turn
      · cases turn
        exact ⟨nofun, fun _ => ⟨start, s, h, reached, met, few.antisymm ‹_›⟩⟩
      · split at turn
        · cases turn
          exact ⟨fun _ => ⟨start, s, h, reached, met, Nat.lt_of_not_le ‹_›, ‹_›⟩,
            nofun⟩
        · obtain ⟨_ | ⟨first, tail⟩, rest, below⟩ :=
            l <;> simp only [resolveStep, link] at turn <;> cases turn
          exact ⟨nofun, nofun⟩

/-- Links are bounded exactly if none is met, among the first `LINK_MAX`, with the
stack full. -/
theorem links_bounded_iff (t : Tree) (loc : Entry) (path : Name) (followLast : Bool) :
    LinksBounded t loc path followLast ↔ ¬ Overfull t loc path followLast := by
  constructor
  · rintro ⟨r, walks, safe, -⟩ ⟨start, s, h, reached, met, few, full⟩
    obtain ⟨l, link⟩ := Option.ne_none_iff_exists'.mp met
    have panics : Returns (walkStep t followLast) s .panic :=
      .stop (by rw [walkStep_of_link link, if_neg (by omega), if_pos full])
    have panics := (returns_of_resolves reached few.le).elim id fun along => along _ panics
    exact safe (((walks_iff h).mp walks).unique panics)
  · intro roomy
    obtain ⟨r, walks⟩ := walk_returns t loc path followLast
    refine ⟨r, walks, ?_⟩
    cases h : walkStart t loc path with
    | inr r' =>
      obtain ⟨fuel, run⟩ := walks
      rw [walk, h] at run
      cases run
      have other : r ≠ .panic ∧ r ≠ .err .emlink := by
        unfold walkStart at h
        grind
      refine ⟨other.1, (absurd · other.2), ?_⟩
      rintro ⟨start, s, h', -⟩
      cases h.symm.trans h'
    | inl start =>
      rw [walks_iff h] at walks
      obtain ⟨full, many⟩ := link_of_returns h walks
      have safe := fun panics => roomy (full panics)
      refine ⟨safe, many, ?_⟩
      rintro ⟨start', s, h', reached, met, passed⟩
      cases h.symm.trans h'
      obtain ⟨l, link⟩ := Option.ne_none_iff_exists'.mp met
      have returns : Returns (walkStep t followLast) s (.err .emlink) :=
        .stop (by rw [walkStep_of_link link, if_pos passed.ge])
      obtain panics | along := returns_of_resolves reached passed.le
      · exact absurd (walks.unique panics) safe
      · exact walks.unique (along _ returns)

/-- In a chain of `LINK_MAX` links, the last one is put behind the end of the stack. -/
theorem not_links_bounded : ¬ LinksBounded chain (.node 0) [65] true := by
  rintro ⟨r, ⟨fuel, walks⟩, safe, -⟩
  have panics : walk chain 100 (.node 0) [65] true = some .panic := by decide +kernel
  exact safe (loop_unique walks panics)

end BadgerOS.Path
