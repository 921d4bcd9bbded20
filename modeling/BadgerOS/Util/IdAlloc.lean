import Mathlib

/-!
# The allocator of ids

`IdAlloc` keeps the ids that are free as ranges in order. Every id it hands out is
the first of a range, so a range is never split.
-/

namespace BadgerOS

structure IdAlloc.Entry where
  first : Nat
  last : Nat

structure IdAlloc where
  next : Nat
  avail : List IdAlloc.Entry

namespace IdAlloc

open List

inductive Error where
  | noId
  | noMem

def idMax : Nat := 2 ^ 32 - 1

def new : IdAlloc := ⟨1, [⟨1, idMax⟩]⟩

def updateNext (id : Nat) : Nat := if (id + 1) % 2 ^ 32 = 0 then 1 else (id + 1) % 2 ^ 32

/-- `binary_search_by` of a slice that is in order. -/
def binarySearchBy (cmp : Entry → Ordering) (avail : List Entry) : Except Nat Nat :=
  let index := (avail.takeWhile (cmp · = .lt)).length
  if (avail.dropWhile (cmp · = .lt)).head?.any (cmp · = .eq) then .ok index else .error index

/-- `room` says whether `try_reserve` finds memory. -/
def dealloc (s : IdAlloc) (id : Nat) (room : Bool) : IdAlloc :=
  match binarySearchBy (fun e => compare e.first id) s.avail with
  | .ok _ => s
  | .error index =>
    let left := if 0 < index then s.avail[index - 1]?.filter (·.last + 1 = id) else none
    let right := s.avail[index]?.filter (id + 1 = ·.first)
    match left, right with
    | some l, some r =>
      { s with avail := (s.avail.set (index - 1) ⟨l.first, r.last⟩).eraseIdx index }
    | some l, none => { s with avail := s.avail.set (index - 1) ⟨l.first, id⟩ }
    | none, some r => { s with avail := s.avail.set index ⟨id, r.last⟩ }
    | none, none => if room then { s with avail := s.avail.insertIdx index ⟨id, id⟩ } else s

/-- The end of `alloc`: the id leaves its range. -/
def take (s : IdAlloc) (id index : Nat) (entry : Entry) (room : Bool) :
    Except Error (Nat × IdAlloc) :=
  let done avail := .ok (id, ⟨updateNext id, avail⟩)
  if id = entry.first ∧ id = entry.last then done (s.avail.eraseIdx index)
  else if id = entry.first then done (s.avail.set index ⟨entry.first + 1, entry.last⟩)
  else if id = entry.last then done (s.avail.set index ⟨entry.first, entry.last - 1⟩)
  else if entry.last < id then .error .noId
  else if !room then .error .noMem
  else done ((s.avail.set index ⟨entry.first, entry.last - 1⟩).insertIdx (index + 1)
    ⟨id + 1, entry.last⟩)

/-- `none` is an index out of range. -/
def alloc (s : IdAlloc) (room : Bool) : Option (Except Error (Nat × IdAlloc)) :=
  if s.avail.length = 0 then some (.error .noId)
  else
    let (id, index) := match binarySearchBy (fun e => compare e.first s.next) s.avail with
      | .ok index => (s.next, index)
      | .error index => if index < s.avail.length then (s.next, index) else (1, 0)
    s.avail[index]?.map fun entry =>
      if id < entry.first then s.take entry.first index entry room
      else if entry.last < id then match s.avail[index + 1]? with
        | some entry => s.take entry.first (index + 1) entry room
        | none => .error .noId
      else s.take id index entry room

def isFree (s : IdAlloc) (id : Nat) : Bool :=
  (binarySearchBy (fun e => if id < e.first then .gt else if e.last < id then .lt else .eq)
    s.avail).isOk

/-- Calls with enough memory, with the ids that are allocated. -/
inductive Reached : IdAlloc → Set Nat → Prop
  | new : Reached new ∅
  | alloc {s s' live id} : Reached s live → s.alloc true = some (.ok (id, s')) →
    Reached s' (insert id live)
  | dealloc {s live id} : Reached s live → id ∈ live →
    Reached (s.dealloc id true) (live \ {id})

/-- Some range has the id. -/
def Free (avail : List Entry) (id : Nat) : Prop := ∃ e ∈ avail, e.first ≤ id ∧ id ≤ e.last

/-- The ranges are in order, apart and not empty, and have exactly the ids that are
not allocated. -/
structure Exact (s : IdAlloc) (live : Set Nat) : Prop where
  nonempty : ∀ e ∈ s.avail, e.first ≤ e.last
  apart : s.avail.Pairwise fun a b => a.last + 1 < b.first
  free : ∀ id, Free s.avail id ↔ (1 ≤ id ∧ id ≤ idMax) ∧ id ∉ live

variable {s : IdAlloc} {live : Set Nat} {id : Nat} {cmp : Entry → Ordering} {avail : List Entry}

@[simp] theorem free_nil : ¬ Free [] id := by simp [Free]

@[simp] theorem free_cons {e : Entry} : Free (e :: avail) id ↔ e.first ≤ id ∧
    id ≤ e.last ∨ Free avail id := by
  simp [Free]

@[simp] theorem free_append {l r : List Entry} : Free (l ++ r) id ↔ Free l id ∨ Free r id := by
  simp [Free, or_and_right, exists_or]

theorem Free.below {k : Nat} (free : Free avail id) (h : ∀ e ∈ avail, e.last < k) : id < k := by
  obtain ⟨e, mem, -, le⟩ := free
  exact le.trans_lt (h e mem)

theorem Free.above {k : Nat} (free : Free avail id) (h : ∀ e ∈ avail, k < e.first) :
    k < id := by
  obtain ⟨e, mem, le, -⟩ := free
  exact (h e mem).trans_le le

/-- A search splits the list where the order changes. -/
theorem binarySearchBy_spec (cmp : Entry → Ordering) (avail : List Entry) :
    ∃ l r, avail = l ++ r ∧ (∀ e ∈ l, cmp e = .lt) ∧
      (∀ e ∈ r.head?, cmp e ≠ .lt) ∧
      binarySearchBy cmp avail = if r.head?.any (cmp · = .eq) then .ok l.length
        else .error l.length := by
  refine ⟨_, _, takeWhile_append_dropWhile.symm, ?_, ?_, rfl⟩
  · intro e mem
    simpa using mem_takeWhile_imp mem
  · intro e mem less
    have := head?_dropWhile_not (cmp · = .lt) avail
    rw [mem] at this
    simp [less] at this

theorem alloc_spec (exact_ : Exact s live) (some_ : s.avail ≠ []) (room : Bool) :
    ∃ l e r, s.avail = l ++ e :: r ∧ s.alloc room = some (.ok (e.first, ⟨updateNext e.first,
      l ++ if e.first = e.last then r else ⟨e.first + 1, e.last⟩ :: r⟩)) := by
  have taken {l e r} (split : s.avail = l ++ e :: r) : s.take e.first l.length e room =
      .ok (e.first, ⟨updateNext e.first, l ++ if e.first = e.last then r
          else ⟨e.first + 1, e.last⟩ :: r⟩) := by
    unfold take
    by_cases one : e.first = e.last <;> simp [split, one, eraseIdx_append_of_length_le]
  obtain ⟨l, r, split, -, other, search⟩ :=
    binarySearchBy_spec (fun e => compare e.first s.next) s.avail
  unfold alloc
  rw [if_neg (by simpa using some_), search]
  cases r with
  | nil =>
    -- Every range starts below `next`: the first one is taken.
    obtain ⟨e, r, first⟩ := exists_cons_of_ne_nil some_
    refine ⟨[], e, r, first, ?_⟩
    have taken := taken (l := []) first
    have proper := ((exact_.free e.first).mp
      ⟨e, by simp [first], le_rfl, exact_.nonempty e (by simp [first])⟩).1.1
    have le := exact_.nonempty e (by simp [first])
    rw [append_nil] at split
    simp only [length_nil] at taken
    grind
  | cons e r =>
    refine ⟨l, e, r, split, ?_⟩
    have taken := taken split
    have le := exact_.nonempty e (by simp [split])
    have other := other e rfl
    by_cases same : e.first = s.next
    · simp [split, same] at taken ⊢
      grind
    · have less : s.next < e.first := by
        rw [Ne, Nat.compare_eq_lt] at other
        omega
      simp [split, same]
      grind

theorem Exact.alloc (exact_ : Exact s live) {l r : List Entry} {e : Entry}
    (split : s.avail = l ++ e :: r) (next : Nat) :
    e.first ∉ live ∧ Exact ⟨next, l ++ if e.first = e.last then r
      else ⟨e.first + 1, e.last⟩ :: r⟩ (insert e.first live) := by
  obtain ⟨nonempty, apart, free⟩ := exact_
  rw [split] at nonempty apart free
  have le := nonempty e (by simp)
  simp only [pairwise_append, pairwise_cons, mem_cons] at apart
  refine ⟨((free e.first).mp ⟨e, by simp, le_rfl, le⟩).2, ?_, ?_, ?_⟩
  · grind
  · split <;> simp only [pairwise_append, pairwise_cons, mem_cons] <;> grind
  · intro id
    have old := free id
    have below (free : Free l id) := free.below (k := e.first - 1) (by grind)
    have above (free : Free r id) := free.above (k := e.last) (by grind)
    simp only [free_append, free_cons] at old
    simp only [Set.mem_insert_iff, free_append]
    split <;> simp <;> grind

@[simp] theorem insertIdx_after {l r : List Entry} {a e : Entry} :
    (l ++ a :: r).insertIdx (l.length + 1) e = l ++ a :: e :: r := by
  induction l <;> simp [*]

/-- The ranges around an id that is not free are joined to it where they touch it. -/
theorem dealloc_spec {l r : List Entry} (split : s.avail = l ++ r)
    (nonempty : ∀ e ∈ s.avail, e.first ≤ e.last)
    (apart : s.avail.Pairwise fun a b => a.last + 1 < b.first) (under : ∀ e ∈ l, e.last < id)
    (above : ∀ e ∈ r, id < e.first)
    (search : binarySearchBy (fun e => compare e.first id) s.avail = .error l.length) :
    ∃ L m R, (s.dealloc id true).avail = L ++ m :: R ∧ L.Sublist l ∧ R.Sublist r ∧
      (∀ e ∈ L, e.last + 1 < m.first) ∧ (∀ e ∈ R, m.last + 1 < e.first) ∧
      m.first ≤ id ∧ id ≤ m.last ∧
      ∀ i, Free (L ++ m :: R) i ↔ Free (l ++ r) i ∨ i = id := by
  unfold dealloc
  rw [search, split]
  rw [split] at nonempty apart
  rcases eq_nil_or_concat l with rfl | ⟨l, a, rfl⟩ <;> rcases r with _ | ⟨b, r⟩
  · refine ⟨[], ⟨id, id⟩, [], ?_⟩
    simp
    omega
  · by_cases right : id + 1 = b.first
    · refine ⟨[], ⟨id, b.last⟩, r, ?_⟩
      simp [right] at nonempty apart above ⊢
      grind
    · refine ⟨[], ⟨id, id⟩, b :: r, ?_⟩
      simp at nonempty apart above ⊢
      grind
  · by_cases left : a.last + 1 = id
    · refine ⟨l, ⟨a.first, id⟩, [], ?_⟩
      simp [left, pairwise_append] at nonempty apart under above ⊢
      grind
    · refine ⟨l ++ [a], ⟨id, id⟩, [], ?_⟩
      simp [pairwise_append] at nonempty apart under above ⊢
      grind
  · by_cases left : a.last + 1 = id <;> by_cases right : id + 1 = b.first
    · refine ⟨l, ⟨a.first, b.last⟩, r, ?_⟩
      simp [left, right, pairwise_append, eraseIdx_append_of_length_le]
        at nonempty apart under above ⊢
      grind
    · refine ⟨l, ⟨a.first, id⟩, b :: r, ?_⟩
      simp [left, pairwise_append] at nonempty apart under above ⊢
      grind
    · refine ⟨l ++ [a], ⟨id, b.last⟩, r, ?_⟩
      simp [right, pairwise_append] at nonempty apart under above ⊢
      grind
    · refine ⟨l ++ [a], ⟨id, id⟩, b :: r, ?_⟩
      simp [pairwise_append] at nonempty apart under above ⊢
      grind

theorem Exact.dealloc (exact_ : Exact s live) (mem : id ∈ live) (proper : 1 ≤ id ∧ id ≤ idMax) :
    Exact (s.dealloc id true) (live \ {id}) := by
  obtain ⟨l, r, split, below, other, search⟩ :=
    binarySearchBy_spec (fun e => compare e.first id) s.avail
  obtain ⟨nonempty, apart, free⟩ := exact_
  have taken : ¬ Free s.avail id := fun h => ((free id).mp h).2 mem
  have under : ∀ e ∈ l, e.last < id := by
    intro e here
    have less := Nat.compare_eq_lt.mp (below e here)
    by_contra
    exact taken ⟨e, by simp [split, here], by omega, by omega⟩
  have above : ∀ e ∈ r, id < e.first := by
    cases r with
    | nil => simp
    | cons b r =>
      have := nonempty b (by simp [split])
      have least : id < b.first := by
        have := other b rfl
        rw [Ne, Nat.compare_eq_lt] at this
        by_contra
        exact taken ⟨b, by simp [split], by omega, by omega⟩
      rw [split, pairwise_append, pairwise_cons] at apart
      grind
  have search : binarySearchBy (fun e => compare e.first id) s.avail = .error l.length := by
    rw [search, if_neg]
    cases r with
    | nil => simp
    | cons e r =>
      have := above e mem_cons_self
      simp
      omega
  obtain ⟨L, m, R, eq, left, right, before, after, le, le', new⟩ :=
    dealloc_spec split nonempty apart under above search
  rw [split] at nonempty apart free
  obtain ⟨inL, inR, -⟩ := pairwise_append.mp apart
  constructor
  · rw [eq]
    intro e here
    have := left.subset (a := e)
    have := right.subset (a := e)
    grind
  · rw [eq, pairwise_append, pairwise_cons]
    refine ⟨inL.sublist left, ⟨after, inR.sublist right⟩, ?_⟩
    grind
  · intro i
    rw [eq, new, free]
    simp only [Set.mem_sdiff, Set.mem_singleton_iff]
    grind

theorem Exact.isFree_iff (exact_ : Exact s live) : s.isFree id = true ↔ Free s.avail id := by
  obtain ⟨l, r, split, below, other, search⟩ := binarySearchBy_spec
    (fun e => if id < e.first then .gt else if e.last < id then .lt else .eq) s.avail
  obtain ⟨nonempty, apart, -⟩ := exact_
  rw [split] at apart
  rw [isFree, search, split, free_append]
  have not_left : ¬ Free l id := by
    rintro ⟨e, mem, le, le'⟩
    have := below e mem
    grind
  cases r with
  | nil => simpa [Except.isOk, Except.toBool] using not_left
  | cons b r =>
    have other := other b rfl
    rw [pairwise_append, pairwise_cons] at apart
    have above (free : Free r id) := free.above fun e mem => Nat.lt_of_succ_lt (apart.2.1.1 e mem)
    have := nonempty b (by simp [split])
    simp only [not_left, false_or, free_cons, head?_cons, Option.any_some]
    grind [Except.toBool]

theorem Reached.exact_ (h : Reached s live) : Exact s live ∧ ∀ id ∈ live, 1 ≤ id ∧
    id ≤ idMax := by
  induction h with
  | new =>
    refine ⟨⟨?_, ?_, ?_⟩, ?_⟩
    · simp [IdAlloc.new, idMax]
    · simp [IdAlloc.new]
    · simp [IdAlloc.new]
    · simp
  | @alloc s s' live id _ run ih =>
    obtain ⟨ih, proper⟩ := ih
    have some_ : s.avail ≠ [] := by
      intro none
      simp [IdAlloc.alloc, none] at run
    obtain ⟨l, e, r, split, run'⟩ := alloc_spec ih some_ true
    rw [run] at run'
    cases run'
    have first :=
      (ih.free e.first).mp ⟨e, by simp [split], le_rfl, ih.nonempty e (by simp [split])⟩
    refine ⟨(ih.alloc split _).2, ?_⟩
    rintro id (rfl | mem)
    · exact first.1
    · exact proper id mem
  | dealloc _ mem ih => exact ⟨ih.1.dealloc mem (ih.2 _ mem), fun id left => ih.2 id left.1⟩

/-- In every run the ranges are the ids that are not allocated, and the calls tell
which these are. -/
theorem ids_exact (h : Reached s live) :
    Exact s live ∧
      (∀ id, 1 ≤ id ∧ id ≤ idMax → (s.isFree id = true ↔ id ∉ live)) ∧
    (∀ {id s'}, s.alloc true = some (.ok (id, s')) → (1 ≤ id ∧ id ≤ idMax) ∧
      id ∉ live) ∧
    (s.alloc true = some (.error .noId) ↔ ∀ id, 1 ≤ id ∧ id ≤ idMax → id ∈ live) ∧
    s.alloc true ≠ none ∧ s.alloc true ≠ some (.error .noMem) := by
  have ex := h.exact_.1
  refine ⟨ex, ?_, ?_⟩
  · intro id proper
    rw [ex.isFree_iff, ex.free]
    exact and_iff_right proper
  by_cases none : s.avail = []
  · have all : ∀ id, 1 ≤ id ∧ id ≤ idMax → id ∈ live := by
      intro id proper
      by_contra out
      have free := (ex.free id).mpr ⟨proper, out⟩
      rw [none] at free
      exact free_nil free
    simpa [IdAlloc.alloc, none] using all
  · obtain ⟨l, e, r, split, run⟩ := alloc_spec ex none true
    have first :=
      (ex.free e.first).mp ⟨e, by simp [split], le_rfl, ex.nonempty e (by simp [split])⟩
    simp [run]
    grind

theorem ids_exact_first : ∃ s, Reached s {1} ∧ Exact s {1} := by
  have reached : Reached ⟨2, [⟨2, idMax⟩]⟩ (insert 1 ∅) := .alloc .new rfl
  rw [insert_empty_eq] at reached
  exact ⟨_, reached, (ids_exact reached).1⟩

end IdAlloc
end BadgerOS
