import BadgerOS.Lib.Interleaving
import BadgerOS.Mem.PageCache

/-!
# Concurrent write-back

Any number of threads run `write_bytes`, `sync_impl`, `mark_dirty` and `flush` of
the page cache at once. Each section under the lock of the tree, each atomic
operation, each copy and each disk access is one step. The tree is a map from
index to entry, the store has the bytes of each entry, and a long `write_bytes`
is one call for each page. What is under "History" no step looks at.

Memory is always there: `alloc` gets its page, and `insert` gets the nodes of the tree. What
an `insert` that finds no memory does to the tree is in `Util/RadixFailures`; here no entry is
lost that way.
-/

namespace BadgerOS.WriteBack

open Interleaving PageCache Function Option Flags

/-- The next step of a thread, with the index and the entry that it works on. -/
inductive Pc where
  | idle
  /-- `alloc`: look for the entry, and insert it if it is absent. -/
  | lookup (i start : Nat) (wdata : List Byte)
  | insert (i start : Nat) (wdata : List Byte)
  | fill (i : Nat) (e : Entry) (start : Nat) (wdata : List Byte)
  /-- The read failed: take the entry back out. -/
  | unfill (i : Nat) (e : Entry)
  | filled (i : Nat) (e : Entry) (start : Nat) (wdata : List Byte)
  | publish (i : Nat) (e : Entry) (start : Nat) (wdata : List Byte)
  /-- `write_bytes`: copy, mark dirty and drop the page. -/
  | copy (i : Nat) (e : Entry) (start : Nat) (wdata : List Byte)
  | mark (i : Nat) (e : Entry) (version : Nat)
  | drop (i : Nat) (e : Entry)
  /-- `mark_dirty` of a page that was written through a mapping. -/
  | markOnly (i : Nat)
  /-- `sync_impl`: what is still to be synced. -/
  | sync (toSync : List Nat)
  /-- History: `since` is the newest write that was completed when it started. -/
  | write (i : Nat) (e : Entry) (rest : List Nat) (since : Nat)
  | failed (i : Nat) (e : Entry) (since : Nat)
  | finish (i : Nat) (e : Entry) (rest : List Nat)
  deriving DecidableEq, Repr

structure Shared where
  pages : Nat → Option Entry
  flags : Entry → BitVec 32
  refcount : Entry → Nat
  mem : Entry → Nat → Byte
  store : Nat → Nat → Byte
  next : Entry
  threads : Nat → Pc
  /-- A thread has failed an `expect`. -/
  panicked : Bool
  -- History: how often the bytes of an entry were changed, which change the newest
  -- completed write made, and which changes the store has.
  version : Entry → Nat
  completed : Entry → Nat
  stored : Entry → Nat

namespace Shared

def setPc (s : Shared) (t : Nat) (pc : Pc) : Shared :=
  { s with threads := update s.threads t pc }

def setFlags (s : Shared) (e : Entry) (flags : BitVec 32) : Shared :=
  { s with flags := update s.flags e flags }

/-- `(DIRTY | WRITING | READING)` is clear and nothing refers to the entry. -/
def canEvict (s : Shared) (i : Nat) : Bool :=
  match s.pages i with
  | some e =>
    s.flags e &&& (Flags.dirty ||| Flags.writing ||| Flags.reading) = 0 ∧ s.refcount e = 0
  | none => false

end Shared

inductive Event where
  /-- Thread `t` calls one of the functions. -/
  | callWrite (t i start : Nat) (wdata : List Byte)
  | callMark (t i : Nat)
  | callSync (t : Nat) (toSync : List Nat)
  | run (t : Nat)
  /-- The disk access or the copy from user memory that thread `t` makes fails. -/
  | fault (t : Nat)
  /-- `flush` evicts these entries. -/
  | flush (evicted : List Nat)
  deriving DecidableEq, Repr

open Shared

/-- Thread `t`, in no call, begins one. -/
def call (t : Nat) (pc : Pc) (s : Shared) : Option Shared :=
  if s.threads t = .idle then some (s.setPc t pc) else none

def runThread (t : Nat) (s : Shared) : Option Shared :=
  match s.threads t with
  | .idle => none
  | .lookup i start wdata =>
    match s.pages i with
    | some e =>
      -- while the entry is being read, the thread waits
      if s.flags e &&& Flags.reading ≠ 0 then none
      else some { s.setPc t (.copy i e start wdata) with
        refcount := update s.refcount e (s.refcount e + 1) }
    | none => some (s.setPc t (.insert i start wdata))
  | .insert i start wdata =>
    match s.pages i with
    | some _ => some (s.setPc t (.lookup i start wdata))
    | none => some { s.setPc t (.fill i s.next start wdata) with
        pages := update s.pages i (some s.next)
        flags := update s.flags s.next Flags.reading
        refcount := update s.refcount s.next 0
        next := s.next + 1
        version := update s.version s.next 1
        completed := update s.completed s.next 0
        stored := update s.stored s.next 0 }
  | .fill i e start wdata =>
    some { s.setPc t (.filled i e start wdata) with
      mem := update s.mem e (s.store i)
      stored := update s.stored e (s.version e) }
  | .unfill i _ => some { s.setPc t .idle with pages := update s.pages i none }
  | .filled i e start wdata =>
    some { s.setPc t (.publish i e start wdata) with
      refcount := update s.refcount e (s.refcount e + 1) }
  | .publish i _ start wdata =>
    match s.pages i with
    | some e => some ((s.setPc t (.copy i e start wdata)).setFlags e 0)
    | none => some { s with panicked := true }
  | .copy i e start wdata =>
    some { s.setPc t (.mark i e (s.version e + 1)) with
      mem := update s.mem e (overwrite (s.mem e) start wdata.length fun j => wdata.getD j 0)
      version := update s.version e (s.version e + 1) }
  | .mark i e version =>
    match s.pages i with
    | some e' => some { (s.setPc t (.drop i e)).setFlags e' (s.flags e' ||| Flags.dirty) with
        completed := update s.completed e (max (s.completed e) version) }
    | none => some (s.setPc t (.drop i e))
  | .drop _ e =>
    some { s.setPc t .idle with refcount := update s.refcount e (s.refcount e - 1) }
  | .markOnly i =>
    match s.pages i with
    | some e => some ((s.setPc t .idle).setFlags e (s.flags e ||| Flags.dirty))
    | none => some (s.setPc t .idle)
  | .sync [] => some (s.setPc t .idle)
  | .sync (i :: rest) =>
    match s.pages i with
    | some e =>
      if s.flags e &&& (Flags.dirty ||| Flags.writing) = Flags.dirty then
        some ((s.setPc t (.write i e rest (s.completed e))).setFlags e 0)
      else some (s.setPc t (.sync rest))
    | none => some (s.setPc t (.sync rest))
  | .write i e rest _ =>
    some { s.setPc t (.finish i e rest) with
      store := update s.store i (s.mem e)
      stored := update s.stored e (s.version e) }
  | .finish i _ rest =>
    match s.pages i with
    | some e => some ((s.setPc t (.sync rest)).setFlags e 0)
    | none => some { s with panicked := true }
  | .failed i _ _ =>
    match s.pages i with
    | some e => some ((s.setPc t .idle).setFlags e Flags.dirty)
    | none => some { s with panicked := true }

def faultThread (t : Nat) (s : Shared) : Option Shared :=
  match s.threads t with
  | .fill i e _ _ => some (s.setPc t (.unfill i e))
  | .copy i e start wdata =>
    -- some bytes may have been copied, and `mark_dirty` is not called
    some { s.setPc t (.drop i e) with
      mem := update s.mem e (overwrite (s.mem e) start wdata.length fun j => wdata.getD j 0)
      version := update s.version e (s.version e + 1) }
  | .write i e _ since => some (s.setPc t (.failed i e since))
  | _ => none

def step (event : Event) (s : Shared) : Option Shared :=
  match event with
  | .callWrite t i start wdata => call t (.lookup i start wdata) s
  | .callMark t i => call t (.markOnly i) s
  | .callSync t toSync => call t (.sync toSync) s
  | .run t => runThread t s
  | .fault t => faultThread t s
  | .flush evicted =>
    if evicted.all s.canEvict then
      some { s with pages := fun i => if i ∈ evicted then none else s.pages i }
    else none

namespace Pc

/-- The entry that the thread works on. -/
def entry : Pc → Option (Nat × Entry)
  | .fill i e _ _ | .unfill i e | .filled i e _ _ | .publish i e _ _ | .copy i e _ _ | .mark i e _
  | .drop i e | .write i e _ _ | .failed i e _ | .finish i e _ => some (i, e)
  | _ => none

/-- The thread reads its entry in. -/
def isFilling : Pc → Bool
  | .fill .. | .unfill .. | .filled .. | .publish .. => true
  | _ => false

/-- The entry that the thread has a reference to. -/
def holds : Pc → Option Entry
  | .publish _ e _ _ | .copy _ e _ _ | .mark _ e _ | .drop _ e => some e
  | _ => none

/-- The entry whose write-back is in progress, and the newest write that was
completed when it started. -/
def writingBack : Pc → Option (Nat × Entry × Nat)
  | .write i e _ since | .failed i e since => some (i, e, since)
  | _ => none

/-- The index of the entry whose flags the thread has cleared and will store again. -/
def pending : Pc → Option Nat
  | .write i _ _ _ | .failed i _ _ | .finish i _ _ => some i
  | _ => none

end Pc

open Pc

/-- As long as the store lacks a completed write, the entry is dirty or a write-back
that started after it is in progress. -/
def NothingLost (s : Shared) : Prop :=
  ∀ i e, s.pages i = some e → s.stored e < s.completed e →
    s.flags e &&& Flags.dirty ≠ 0 ∨
      ∃ t, (s.threads t).writingBack = some (i, e, s.completed e)

structure Safe (s : Shared) : Prop where
  kept : NothingLost s
  /-- The bytes differ from those of the store only if the store lacks a change. -/
  same {i : Nat} {e : Entry} (found : s.pages i = some e) (all : s.stored e = s.version e) :
    s.store i = s.mem e
  /-- No `expect` has failed. -/
  running : s.panicked = false

/-- `mark_dirty` finds no entry that is being read, the completion of a write-back
finds no newer write marked, and `flush` evicts no entry that is being written
back. -/
def Calm (s : Shared) : Event → Prop
  | .run t => match s.threads t with
    | .markOnly i => ∀ e, s.pages i = some e → s.flags e &&& Flags.reading = 0
    | .finish _ e _ => s.flags e &&& Flags.dirty = 0 ∨ s.completed e ≤ s.stored e
    | _ => True
  | .flush evicted => ∀ t i, (s.threads t).pending = some i → i ∉ evicted
  | _ => True

/-! ### References -/

/-- The reference count of each entry is the number of threads that hold it. -/
def Counted (s : Shared) : Prop :=
  ∀ e, ∃ holders : Finset Nat, (∀ t, t ∈ holders ↔ (s.threads t).holds = some e) ∧
    s.refcount e = holders.card

section Counted

variable {s : Shared} {t : Nat} {e : Entry} {pc : Pc}

theorem setPc_threads : (s.setPc t pc).threads = update s.threads t pc := rfl

theorem Counted.unheld (h : Counted s) (zero : s.refcount e = 0) (t : Nat) :
    (s.threads t).holds ≠ some e := by
  obtain ⟨holders, mem, card⟩ := h e
  have empty := Finset.card_eq_zero.mp (card.symm.trans zero)
  intro held
  have := (mem t).mpr held
  simp [empty] at this

theorem forall_setPc {P : Nat → Pc → Prop} (here : P t pc)
    (others : ∀ t', t' ≠ t → P t' (s.threads t')) : ∀ t', P t' ((s.setPc t pc).threads t') := by
  intro t'
  by_cases ht : t' = t
  · subst ht
    simpa [setPc_threads] using here
  · simpa [setPc_threads, ht] using others t' ht

/-- Thread `t` goes on, and `holders'` differs from `holders` at `t` only. -/
theorem holders_setPc {holders holders' : Finset Nat}
    (mem : ∀ t, t ∈ holders ↔ (s.threads t).holds = some e)
    (here : t ∈ holders' ↔ pc.holds = some e)
    (others : ∀ t', t' ≠ t → (t' ∈ holders' ↔ t' ∈ holders)) (t' : Nat) :
    t' ∈ holders' ↔ ((s.setPc t pc).threads t').holds = some e := by
  apply forall_setPc (P := fun t' pc => t' ∈ holders' ↔ pc.holds = some e) here
  exact fun t' ht => (others t' ht).trans (mem t')

theorem Counted.move (h : Counted s) (same : pc.holds = (s.threads t).holds) :
    Counted (s.setPc t pc) := by
  intro e
  obtain ⟨holders, mem, card⟩ := h e
  exact ⟨holders, holders_setPc mem (same ▸ mem t) fun _ _ => Iff.rfl, card⟩

theorem Counted.acquire (h : Counted s) (before : (s.threads t).holds = none)
    (after : pc.holds = some e) :
    Counted { s.setPc t pc with refcount := update s.refcount e (s.refcount e + 1) } := by
  intro e'
  obtain ⟨holders, mem, card⟩ := h e'
  have absent : t ∉ holders := by simp [mem, before]
  by_cases he : e' = e
  · subst he
    refine ⟨insert t holders, holders_setPc mem (by simp [after]) (by simp +contextual), ?_⟩
    simp [Finset.card_insert_of_notMem absent, card]
  · exact ⟨holders, holders_setPc mem (by simp [after, absent, Ne.symm he]) fun _ _ =>
      Iff.rfl, by simpa [he] using card⟩

theorem Counted.release (h : Counted s) (before : (s.threads t).holds = some e)
    (after : pc.holds = none) :
    Counted { s.setPc t pc with refcount := update s.refcount e (s.refcount e - 1) } := by
  intro e'
  obtain ⟨holders, mem, card⟩ := h e'
  by_cases he : e' = e
  · subst he
    refine ⟨holders.erase t, holders_setPc mem (by simp [after]) (by simp +contextual), ?_⟩
    simp [Finset.card_erase_of_mem ((mem t).mpr before), card]
  · have absent : t ∉ holders := by simp [mem, before, Ne.symm he]
    exact ⟨holders, holders_setPc mem (by simp [after, absent]) fun _ _ =>
      Iff.rfl, by simpa [he] using card⟩

end Counted

/-! ### The invariant -/

/-- What a thread relies on at its next step: its entry is cached, being read if the
thread reads it in and not being read otherwise. -/
structure PcOk (s : Shared) (pc : Pc) : Prop where
  cached {i : Nat} {e : Entry} (works : pc.entry = some (i, e)) : s.pages i = some e
  reading {i : Nat} {e : Entry} (works : pc.entry = some (i, e)) : s.flags e = Flags.reading ↔
    pc.isFilling = true
  marks {i : Nat} {e : Entry} {version : Nat} (mark : pc = .mark i e version) :
    version ≤ s.version e

structure Inv (s : Shared) : Prop where
  running : s.panicked = false
  old {i : Nat} {e : Entry} (found : s.pages i = some e) : e < s.next
  distinct {i j : Nat} {e : Entry} (found : s.pages i = some e) (again : s.pages j = some e) : i = j
  flags {i : Nat} {e : Entry} (found : s.pages i = some e) :
    s.flags e = Flags.reading ∨ s.flags e = 0 ∨ s.flags e = Flags.dirty
  threads (t : Nat) : PcOk s (s.threads t)
  /-- One thread reads an entry in. -/
  alone {t t' : Nat} {i : Nat} {e : Entry} (one : (s.threads t).entry = some (i, e))
    (other : (s.threads t').entry = some (i, e)) (fills : (s.threads t).isFilling = true)
    (fills' : (s.threads t').isFilling = true) : t = t'
  counted : Counted s
  completed {i : Nat} {e : Entry} (found : s.pages i = some e) : s.completed e ≤ s.version e
  stored {i : Nat} {e : Entry} (found : s.pages i = some e) : s.stored e ≤ s.version e
  same {i : Nat} {e : Entry} (found : s.pages i = some e) (all : s.stored e = s.version e) :
    s.store i = s.mem e
  kept : NothingLost s

variable {pc' pc : Pc} {refcount : Entry → Nat} {s s' : Shared} {event : Event} {t : Nat}

section Changes

variable {i : Nat} {e : Entry}

theorem PcOk.mono (ok : PcOk s pc) (pages : ∀ {i e}, pc.entry = some (i, e) →
    s'.pages i = s.pages i)
    (flags : ∀ {i e}, pc.entry = some (i, e) →
    (s'.flags e = Flags.reading ↔ s.flags e = Flags.reading))
    (version : ∀ {i e}, pc.entry = some (i, e) → s.version e ≤ s'.version e) :
    PcOk s' pc where
  cached works := (pages works).trans (ok.cached works)
  reading works := (flags works).trans (ok.reading works)
  marks mark := (ok.marks mark).trans (version (by rw [mark]; rfl))

/-- A thread that works on no entry relies on nothing. -/
theorem PcOk.of_entry_none (none : pc.entry = none) : PcOk s pc where
  cached works := by simp [none] at works
  reading works := by simp [none] at works
  marks mark := by simp [mark, entry] at none

/-- A thread goes on with the entry it works on. -/
theorem PcOk.turn (ok : PcOk s pc) (entry : pc'.entry = pc.entry)
    (filling : pc'.isFilling = pc.isFilling)
    (marks : ∀ {i e version}, pc' = .mark i e version → version ≤ s.version e) :
    PcOk s pc' where
  cached works := ok.cached (entry ▸ works)
  reading works := filling ▸ ok.reading (entry ▸ works)
  marks := marks

/-- A thread starts to work on an entry. -/
theorem PcOk.enter (works : pc.entry = some (i, e)) (found : s.pages i = some e)
    (reading : s.flags e = Flags.reading ↔ pc.isFilling = true)
    (unmarked : ∀ {i e version}, pc ≠ .mark i e version) : PcOk s pc where
  cached works' := by
    cases works.symm.trans works'
    exact found
  reading works' := by
    cases works.symm.trans works'
    exact reading
  marks mark := absurd mark unmarked

section

variable (h : Inv s)
include h

theorem Inv.pcOk (hpc : s.threads t = pc) : PcOk s pc := hpc ▸ h.threads t

/-- Thread `t` goes on and nothing but its references changes. -/
theorem Inv.goto (ok : PcOk s pc)
    (lone : pc.isFilling = true → ∀ t', t' ≠ t → (s.threads t').entry ≠ pc.entry)
    (back : ∀ {i e}, s.pages i = some e → s.stored e < s.completed e →
      (s.threads t).writingBack = some (i, e, s.completed e) →
      s.flags e &&& Flags.dirty ≠ 0 ∨ pc.writingBack = some (i, e, s.completed e))
    (counted : Counted { s.setPc t pc with refcount }) :
    Inv { s.setPc t pc with refcount } :=
  { h with
    threads t' :=
      have ok := forall_setPc ok (fun t' _ => h.threads t') t'
      ok.mono (fun _ => rfl) (fun _ => Iff.rfl) fun _ => le_rfl
    alone {t₁ t₂} i e one other fills₁ fills₂ := by
      by_cases h₁ : t₁ = t <;> by_cases h₂ : t₂ = t
      · exact h₁.trans h₂.symm
      · simp only [setPc_threads, h₁, update_self, update_of_ne h₂] at one other fills₁
        exact absurd (other.trans one.symm) (lone fills₁ t₂ h₂)
      · simp only [setPc_threads, h₂, update_self, update_of_ne h₁] at one other fills₂
        exact absurd (one.trans other.symm) (lone fills₂ t₁ h₁)
      · simp only [setPc_threads, update_of_ne h₁, update_of_ne h₂] at one other fills₁ fills₂
        exact h.alone one other fills₁ fills₂
    counted := counted
    kept i e found lacks := by
      rcases h.kept i e found lacks with dirty | ⟨t', writes⟩
      · exact .inl dirty
      · by_cases ht : t' = t
        · subst ht
          apply (back found lacks writes).imp_right
          intro still
          exists t'
          simpa [setPc] using still
        · right
          exists t'
          simpa [setPc, ht] using writes }

/-- The flags of an entry that is not being read are stored. -/
theorem Inv.setFlags {flags : BitVec 32} (found : s.pages i = some e)
    (ready : s.flags e ≠ reading) (new : flags = 0 ∨ flags = dirty)
    (back : flags = 0 → s.stored e < s.completed e →
    ∃ t, (s.threads t).writingBack = some (i, e, s.completed e)) : Inv (s.setFlags e flags) :=
  { h with
    flags {j e'} found' := by
      by_cases he : e' = e
      · simpa [Shared.setFlags, he] using Or.inr new
      · simpa [Shared.setFlags, he] using h.flags found'
    threads t := by
      apply (h.threads t).mono
      · exact fun _ => rfl
      · intro j e' _
        by_cases he : e' = e
        · have : flags ≠ reading := by rcases new with rfl | rfl <;> decide
          simp [Shared.setFlags, he, ready, this]
        · simp [Shared.setFlags, he]
      · exact fun _ => le_rfl
    kept j e' found' lacks := by
      by_cases he : e' = e
      · subst he
        cases h.distinct found found'
        rcases new with rfl | rfl
        · exact .inr (back rfl lacks)
        · simp [Shared.setFlags, dirty]
      · simpa [Shared.setFlags, he] using h.kept j e' found' lacks }

/-- The bytes of an entry change. -/
theorem Inv.touch (bytes : Nat → Byte) (found : s.pages i = some e) :
    Inv { s with mem := update s.mem e bytes
                 version := update s.version e (s.version e + 1) } :=
  { h with
    threads t := by
      apply (h.threads t).mono
      · exact fun _ => rfl
      · exact fun _ => Iff.rfl
      · intro j e' _
        by_cases he : e' = e <;> simp [he]
    completed {j e'} found' := by
      have := h.completed found'
      by_cases he : e' = e <;> grind
    stored {j e'} found' := by
      have := h.stored found'
      by_cases he : e' = e <;> grind
    same {j e'} found' all := by
      have := h.stored found'
      by_cases he : e' = e
      · subst he
        simp at all
        omega
      · simpa [he] using h.same found' (by simpa [he] using all) }

/-- A write whose entry is dirty is completed. -/
theorem Inv.complete {version : Nat} (dirty : s.flags e &&& Flags.dirty ≠ 0)
    (made : version ≤ s.version e) :
    Inv { s with completed := update s.completed e (max (s.completed e) version) } :=
  { h with
    threads t := (h.threads t).mono (fun _ => rfl) (fun _ => Iff.rfl) fun _ => le_rfl
    completed {j e'} found' := by
      have := h.completed found'
      by_cases he : e' = e <;> grind
    kept j e' found' lacks := by
      by_cases he : e' = e
      · subst he
        exact .inl dirty
      · simpa [he] using h.kept j e' found' (by simpa [he] using lacks) }

/-- The store gets all bytes of an entry, or an entry all bytes of the store. -/
theorem Inv.transfer (bytes : Nat → Byte) (found : s.pages i = some e) :
    Inv { s with mem := update s.mem e bytes
                 store := update s.store i bytes
                 stored := update s.stored e (s.version e) } :=
  { h with
    threads t := (h.threads t).mono (fun _ => rfl) (fun _ => Iff.rfl) fun _ => le_rfl
    stored {j e'} found' := by
      have := h.stored found'
      by_cases he : e' = e <;> grind
    same {j e'} found' all := by
      by_cases he : e' = e
      · subst he
        cases h.distinct found found'
        simp
      · have hj : j ≠ i := by
          rintro rfl
          exact he (some.inj (found'.symm.trans found))
        simpa [he, hj] using h.same found' (by simpa [he] using all)
    kept j e' found' lacks := by
      by_cases he : e' = e
      · subst he
        have := h.completed found'
        simp at lacks
        omega
      · simpa using h.kept j e' found' (by simpa [he] using lacks) }

/-- The other threads do not work on an entry that `t` reads in. -/
theorem Inv.elsewhere (works : (s.threads t).entry = some (i, e))
    (fills : (s.threads t).isFilling = true) {t' j : Nat}
    {e' : Entry} (ht : t' ≠ t) (works' : (s.threads t').entry = some (j, e')) : j ≠ i ∧
    e' ≠ e := by
  have found := (h.threads t).cached works
  have found' := (h.threads t').cached works'
  suffices e' ≠ e by
    constructor
    · rintro rfl
      exact this (some.inj (found'.symm.trans found))
    · exact this
  rintro rfl
  cases h.distinct found found'
  have reading := ((h.threads t).reading works).mpr fills
  exact ht (h.alone works' works (((h.threads t').reading works').mp reading) fills)

/-- An entry that is being read lacks no completed write. -/
theorem Inv.reading_stored (found : s.pages i = some e) (reading : s.flags e = reading) :
    ¬ s.stored e < s.completed e := by
  intro lacks
  rcases h.kept i e found lacks with dirty | ⟨t, writes⟩
  · rw [reading] at dirty
    exact dirty (by decide)
  · have ok := h.threads t
    cases hpc : s.threads t <;> rw [hpc] at writes ok <;> simp [writingBack] at writes
    all_goals
      obtain ⟨rfl, rfl, -⟩ := writes
      simpa [isFilling] using (ok.reading rfl).mp reading

/-- The thread that read an entry in makes it ready. -/
theorem Inv.publish {start : Nat} {wdata : List Byte}
    (pub : s.threads t = .publish i e start wdata) :
    Inv ((s.setPc t (.copy i e start wdata)).setFlags e 0) := by
  have works : (s.threads t).entry = some (i, e) := by rw [pub]; rfl
  have fills : (s.threads t).isFilling = true := by rw [pub]; rfl
  have found := (h.threads t).cached works
  have reading := ((h.threads t).reading works).mpr fills
  have moved : Counted (s.setPc t (.copy i e start wdata)) := h.counted.move (by rw [pub]; rfl)
  refine { h with
    flags := ?flags, threads := ?threads, alone := ?alone, counted := moved, kept := ?kept }
  case flags =>
    intro j e' found'
    by_cases he : e' = e
    · simp [Shared.setFlags, he]
    · simpa [Shared.setFlags, Shared.setPc, he] using h.flags found'
  case threads =>
    apply forall_setPc
    · constructor
      case cached => rintro j e' ⟨⟩; exact found
      case reading => rintro j e' ⟨⟩; simp [Shared.setFlags, Flags.reading, isFilling]
      case marks => exact fun mark => nomatch mark
    · intro t' ht
      apply (h.threads t').mono
      · exact fun _ => rfl
      · intro j e' works'
        simp [Shared.setFlags, Shared.setPc, (h.elsewhere works fills ht works').2]
      · exact fun _ => le_rfl
  case alone =>
    intro t₁ t₂ j e' one other fills₁ fills₂
    by_cases h₁ : t₁ = t
    · simp [Shared.setFlags, setPc_threads, h₁, isFilling] at fills₁
    · by_cases h₂ : t₂ = t
      · simp [Shared.setFlags, setPc_threads, h₂, isFilling] at fills₂
      · simp only [Shared.setFlags, setPc_threads, update_of_ne h₁, update_of_ne h₂]
          at one other fills₁ fills₂
        exact h.alone one other fills₁ fills₂
  case kept =>
    intro j e' found' lacks
    have he : e' ≠ e := by
      rintro rfl
      exact h.reading_stored found reading lacks
    rcases h.kept j e' found' lacks with dirty | ⟨t', writes⟩
    · left
      simpa [Shared.setFlags, Shared.setPc, he] using dirty
    · right
      exists t'
      have ht : t' ≠ t := by
        rintro rfl
        simp [pub, writingBack] at writes
      simpa [Shared.setFlags, Shared.setPc, ht] using writes

/-- A new entry, that is being read, is inserted. -/
theorem Inv.add (absent : s.pages i = none) : Inv { s with
      pages := update s.pages i (some s.next)
      flags := update s.flags s.next Flags.reading
      refcount := update s.refcount s.next 0
      next := s.next + 1
      version := update s.version s.next 1
      completed := update s.completed s.next 0
      stored := update s.stored s.next 0 } := by
  have each {P : Nat → Entry → Prop} (new : P i s.next) (old : ∀ {j e'}, e' ≠ s.next →
    s.pages j = some e' → P j e')
      {j e'} (found : update s.pages i (some s.next) j = some e') : P j e' := by
    by_cases hj : j = i
    · subst hj
      cases (update_self ..).symm.trans found
      exact new
    · rw [update_of_ne hj] at found
      exact old (h.old found).ne found
  have elsewhere : ∀ {t j e'}, (s.threads t).entry = some (j, e') → j ≠ i ∧
      e' ≠ s.next := by
    intro t j e' works
    have found := (h.threads t).cached works
    constructor
    · rintro rfl
      simp [absent] at found
    · exact (h.old found).ne
  constructor
  case running => exact h.running
  case old => exact each (Nat.lt_succ_self _) fun _ found => Nat.lt_succ_of_lt (h.old found)
  case distinct =>
    intro j k e' found again
    have old {j} := @h.old j e'
    have := @h.distinct j k e'
    grind
  case flags =>
    apply each
    · simp
    · intro j e' new found
      simpa [new] using h.flags found
  case threads =>
    intro t
    apply (h.threads t).mono
    · intro j e' works
      simp [(elsewhere works).1]
    all_goals
      intro j e' works
      simp [(elsewhere works).2]
  case alone => exact h.alone
  case counted =>
    intro e'
    by_cases he : e' = s.next
    · subst he
      exists ∅
      constructor
      · intro t
        suffices (s.threads t).holds ≠ some s.next by simpa
        intro held
        cases hpc : s.threads t <;> simp [hpc, holds] at held
        all_goals
          subst held
          exact (elsewhere (by rw [hpc]; rfl)).2 rfl
      · simp
    · obtain ⟨holders, mem, card⟩ := h.counted e'
      exact ⟨holders, mem, by simpa [he] using card⟩
  case completed =>
    apply each
    · simp
    · intro j e' new found
      simpa [new] using h.completed found
  case stored =>
    apply each
    · simp
    · intro j e' new found
      simpa [new] using h.stored found
  case same =>
    apply each
    · simp
    · intro j e' new found all
      exact h.same found (by simpa [new] using all)
  case kept =>
    apply each
    · simp
    · intro j e' new found lacks
      simpa [new] using h.kept j e' found (by simpa [new] using lacks)

/-- Entries that no thread works on are evicted. -/
theorem Inv.evict {pages : Nat → Option Entry}
    (subset : ∀ {i e}, pages i = some e → s.pages i = some e)
    (used : ∀ {t i e}, (s.threads t).entry = some (i, e) → pages i = s.pages i) :
    Inv { s with pages } :=
  { h with
    old found := h.old (subset found)
    distinct found again := h.distinct (subset found) (subset again)
    flags found := h.flags (subset found)
    threads t := (h.threads t).mono used (fun _ => Iff.rfl) fun _ => le_rfl
    completed found := h.completed (subset found)
    stored found := h.stored (subset found)
    same found := h.same (subset found)
    kept i e found := h.kept i e (subset found) }

end

end Changes

section Steps

variable {start : Nat} {wdata : List Byte}

section

variable (h : Inv s) (hpc : s.threads t = pc)
include h hpc

/-- Thread `t` goes on, it starts no read and ends no write-back. -/
theorem Inv.turn (ok : PcOk s pc') (filling : pc'.isFilling = false)
    (writing : pc.writingBack = none)
    (counted : Counted { s.setPc t pc' with refcount }) : Inv { s.setPc t pc' with refcount } := by
  apply h.goto ok
  · intro fills
    simp [filling] at fills
  · intro i e _ _ writes
    simp [hpc, writing] at writes
  · exact counted

/-- Thread `t` goes on with the read of its entry. -/
theorem Inv.turn_filling
    (filling : pc.isFilling = true) (filling' : pc'.isFilling = true) (entry : pc'.entry = pc.entry)
    (some : pc.entry.isSome) (counted : Counted { s.setPc t pc' with refcount }) :
    Inv { s.setPc t pc' with refcount } := by
  subst hpc
  obtain ⟨⟨i, e⟩, works⟩ := isSome_iff_exists.mp some
  apply h.goto
  · apply (h.threads t).turn entry (filling'.trans filling.symm)
    rintro i e version rfl
    simp [isFilling] at filling'
  · intro _ t' ht works'
    rw [entry, works] at works'
    exact (h.elsewhere works filling ht works').2 rfl
  · cases hpc : s.threads t <;> simp_all [isFilling, writingBack]
  · exact counted

/-- Thread `t` goes on and works on no entry. -/
theorem Inv.leave (plain : pc'.entry = none)
    (filling : pc'.isFilling = false) (writing : pc.writingBack = none)
    (holds : pc'.holds = pc.holds) : Inv (s.setPc t pc') :=
  h.turn hpc (.of_entry_none plain) filling writing (h.counted.move (holds.trans (by rw [hpc])))

end

theorem call_inv (h : Inv s) (plain : pc.entry = none) (filling : pc.isFilling = false)
    (unheld : pc.holds = none) (run : call t pc s = some s') : Inv s' := by
  unfold call at run
  split at run
  · rename_i idle
    cases run
    exact h.leave idle plain filling rfl unheld
  · cases run

section Threads

variable {i version since : Nat} {e : Entry} {rest : List Nat}

/-- The bytes are copied, all or some, and the thread goes on to `pc`. -/
theorem Inv.copied {pc : Pc} (h : Inv s) (hpc : s.threads t = .copy i e start wdata)
    (bytes : Nat → Byte) (works : pc.entry = some (i, e)) (filling : pc.isFilling = false)
    (holds : pc.holds = some e)
    (marks : ∀ {i' e' version}, pc = .mark i' e' version → version = s.version e + 1) :
    Inv { s.setPc t pc with
      mem := update s.mem e bytes
      version := update s.version e (s.version e + 1) } := by
  have ok := h.pcOk hpc
  have touched := h.touch bytes (ok.cached rfl)
  apply touched.turn hpc
  · apply (touched.pcOk hpc).turn works filling
    rintro i' e' version rfl
    cases works
    simp [marks rfl]
  · exact filling
  · rfl
  · exact touched.counted.move (by rw [hpc]; exact holds)

/-- Setting `DIRTY` keeps the invariant if the entry is not being read. -/
theorem Inv.setDirty (h : Inv s) (found : s.pages i = some e) (ready : s.flags e ≠ reading) :
    Inv (s.setFlags e (s.flags e ||| dirty)) ∧ s.flags e ||| dirty = dirty := by
  have flags : s.flags e ||| dirty = dirty := by
    rcases h.flags found with reading | clean | dirty
    · exact absurd reading ready
    · rw [clean]; decide
    · rw [dirty]; decide
  refine ⟨h.setFlags found ready (.inr flags) ?_, flags⟩
  rw [flags]
  exact fun zero => absurd zero (by decide)

variable (h : Inv s) (run : runThread t s = some s')
include h run

theorem lookup_inv (hpc : s.threads t = .lookup i start wdata) : Inv s' := by
  cases found : s.pages i with
  | none =>
    simp only [runThread, hpc, found] at run
    cases run
    exact h.leave hpc rfl rfl rfl rfl
  | some e =>
    simp only [runThread, hpc, found] at run
    split at run
    · cases run
    · rename_i ready
      cases run
      have ready : s.flags e ≠ Flags.reading := by
        intro reading
        simp [reading, Flags.reading] at ready
      apply h.turn hpc
      · exact .enter rfl found (by simp [ready, isFilling]) nofun
      · rfl
      · rfl
      · exact h.counted.acquire (by rw [hpc]; rfl) rfl

theorem insert_inv (hpc : s.threads t = .insert i start wdata) : Inv s' := by
  cases found : s.pages i with
  | some e =>
    simp only [runThread, hpc, found] at run
    cases run
    exact h.leave hpc rfl rfl rfl rfl
  | none =>
    simp only [runThread, hpc, found] at run
    cases run
    have added := h.add found
    apply added.goto
    · exact .enter rfl (by simp) (by simp [isFilling]) nofun
    · intro _ t' _ works
      have := (h.threads t').cached works
      simp [found] at this
    · intro i e _ _ writes
      simp [hpc, writingBack] at writes
    · exact added.counted.move (by rw [hpc]; rfl)

theorem unfill_inv (hpc : s.threads t = .unfill i e) : Inv s' := by
  simp only [runThread, hpc] at run
  cases run
  have left : Inv (s.setPc t .idle) := h.leave hpc rfl rfl rfl rfl
  apply left.evict
  · intro j e' found
    by_cases hj : j = i
    · simp [hj] at found
    · simpa [hj, setPc] using found
  · intro t' j e' works
    by_cases ht : t' = t
    · simp [setPc_threads, ht, entry] at works
    · rw [setPc_threads, update_of_ne ht] at works
      have elsewhere := h.elsewhere (by rw [hpc]; rfl) (by rw [hpc]; rfl) ht works
      exact update_of_ne elsewhere.1 _ _

theorem mark_inv (hpc : s.threads t = .mark i e version) : Inv s' := by
  have ok := h.pcOk hpc
  have found := ok.cached rfl
  have ready : s.flags e ≠ reading := by simp [ok.reading rfl, isFilling]
  simp only [runThread, hpc, found] at run
  cases run
  obtain ⟨marked, flags⟩ := h.setDirty found ready
  have dirty : (s.setFlags e (s.flags e ||| dirty)).flags e &&& dirty ≠ 0 := by
    rw [flags]
    simp [Shared.setFlags, dirty]
  have completed := marked.complete dirty (ok.marks rfl)
  apply completed.turn hpc
  · exact (completed.pcOk hpc).turn rfl rfl nofun
  · rfl
  · rfl
  · exact completed.counted.move (by rw [show (setFlags s e _).threads t = _ from hpc]; rfl)

theorem markOnly_inv (hpc : s.threads t = .markOnly i) (calm : Calm s (.run t)) : Inv s' := by
  have left : Inv (s.setPc t .idle) := h.leave hpc rfl rfl rfl rfl
  cases found : s.pages i with
  | none =>
    simp only [runThread, hpc, found] at run
    cases run
    exact left
  | some e =>
    simp only [runThread, hpc, found] at run
    cases run
    simp only [Calm, hpc] at calm
    apply (left.setDirty found _).1
    intro reading
    have ready := calm e found
    rw [show s.flags e = _ from reading] at ready
    exact absurd ready (by decide)

theorem sync_inv {toSync : List Nat} (hpc : s.threads t = .sync toSync) : Inv s' := by
  cases toSync with
  | nil =>
    simp only [runThread, hpc] at run
    cases run
    exact h.leave hpc rfl rfl rfl rfl
  | cons i rest =>
    cases found : s.pages i with
    | none =>
      simp only [runThread, hpc, found] at run
      cases run
      exact h.leave hpc rfl rfl rfl rfl
    | some e =>
      simp only [runThread, hpc, found] at run
      split at run
      · rename_i dirty
        cases run
        have ready : s.flags e ≠ reading := by
          intro reading
          rw [reading] at dirty
          exact absurd dirty (by decide)
        -- the write-back is in progress before the flag is cleared
        have started : Inv (s.setPc t (.write i e rest (s.completed e))) := by
          apply h.turn hpc
          · exact .enter rfl found (by simp [ready, isFilling]) nofun
          · rfl
          · rfl
          · exact h.counted.move (by rw [hpc]; rfl)
        apply started.setFlags found ready (.inl rfl)
        intro _ _
        exists t
        simp [writingBack, Shared.setPc]
      · cases run
        exact h.leave hpc rfl rfl rfl rfl

theorem write_inv (hpc : s.threads t = .write i e rest since) : Inv s' := by
  simp only [runThread, hpc] at run
  cases run
  have ok := h.pcOk hpc
  have found := ok.cached rfl
  have written := h.transfer (s.mem e) found
  rw [update_eq_self] at written
  apply written.goto
  · exact (written.pcOk hpc).turn rfl rfl nofun
  · nofun
  · -- the store lacks nothing now
    intro j e' found' lacks writes
    simp only [hpc, writingBack, some.injEq, Prod.mk.injEq] at writes
    obtain ⟨-, rfl, -⟩ := writes
    have := h.completed found'
    simp at lacks
    omega
  · exact written.counted.move (by rw [hpc]; rfl)

theorem finish_inv (hpc : s.threads t = .finish i e rest) (calm : Calm s (.run t)) : Inv s' := by
  have ok := h.pcOk hpc
  have found := ok.cached rfl
  have ready : s.flags e ≠ reading := by simp [ok.reading rfl, isFilling]
  simp only [runThread, hpc, found] at run
  cases run
  have left : Inv (s.setPc t (.sync rest)) := h.leave hpc rfl rfl rfl rfl
  apply left.setFlags found ready (.inl rfl)
  intro _ lacks
  simp only [Calm, hpc] at calm
  rcases calm with clean | has
  · exact (left.kept i e found lacks).resolve_left (fun dirty => dirty clean)
  · exact absurd lacks (Nat.not_lt.mpr has)

theorem failed_inv (hpc : s.threads t = .failed i e since) : Inv s' := by
  have ok := h.pcOk hpc
  have found := ok.cached rfl
  have ready : s.flags e ≠ reading := by simp [ok.reading rfl, isFilling]
  simp only [runThread, hpc, found] at run
  cases run
  -- the entry is dirty before the write-back is given up
  have marked := h.setFlags found ready (.inr rfl) (fun zero => absurd zero (by decide))
  apply marked.goto (.of_entry_none rfl)
  · nofun
  · intro j e' _ _ writes
    simp only [Shared.setFlags, hpc, writingBack, Option.some.injEq, Prod.mk.injEq] at writes
    obtain ⟨-, rfl, -⟩ := writes
    simp [Shared.setFlags, dirty]
  · exact marked.counted.move (by rw [show (s.setFlags e dirty).threads t = _ from hpc]; rfl)

theorem runThread_inv (calm : Calm s (.run t)) : Inv s' := by
  cases hpc : s.threads t with
  | idle =>
    simp only [runThread, hpc] at run
    cases run
  | lookup => exact lookup_inv h run hpc
  | insert => exact insert_inv h run hpc
  | fill i e =>
    simp only [runThread, hpc] at run
    cases run
    have filled := h.transfer (s.store i) ((h.pcOk hpc).cached rfl)
    rw [update_eq_self] at filled
    exact filled.turn_filling hpc rfl rfl rfl rfl (filled.counted.move (by rw [hpc]; rfl))
  | unfill => exact unfill_inv h run hpc
  | filled =>
    simp only [runThread, hpc] at run
    cases run
    exact h.turn_filling hpc rfl rfl rfl rfl (h.counted.acquire (by rw [hpc]; rfl) rfl)
  | publish =>
    simp only [runThread, hpc, (h.pcOk hpc).cached rfl] at run
    cases run
    exact h.publish hpc
  | copy =>
    simp only [runThread, hpc] at run
    cases run
    apply h.copied hpc _ rfl rfl rfl
    rintro i' e' version ⟨⟩
    rfl
  | mark => exact mark_inv h run hpc
  | drop =>
    simp only [runThread, hpc] at run
    cases run
    exact h.turn hpc (.of_entry_none rfl) rfl rfl (h.counted.release (by rw [hpc]; rfl) rfl)
  | markOnly => exact markOnly_inv h run hpc calm
  | sync => exact sync_inv h run hpc
  | write => exact write_inv h run hpc
  | finish => exact finish_inv h run hpc calm
  | failed => exact failed_inv h run hpc

end Threads

theorem faultThread_inv (h : Inv s) (run : faultThread t s = some s') : Inv s' := by
  unfold faultThread at run
  split at run
  · rename_i hpc
    cases run
    exact h.turn_filling hpc rfl rfl rfl rfl (h.counted.move (by rw [hpc]; rfl))
  · rename_i hpc
    cases run
    exact h.copied hpc _ rfl rfl rfl nofun
  · rename_i hpc
    cases run
    have ok := h.pcOk hpc
    apply h.goto
    · exact ok.turn rfl rfl nofun
    · nofun
    · intro j e' _ _ writes
      rw [hpc] at writes
      exact .inr writes
    · exact h.counted.move (by rw [hpc]; rfl)
  · cases run

theorem flush_inv {evicted : List Nat} (calm : Calm s (.flush evicted)) (h : Inv s)
    (run : step (.flush evicted) s = some s') : Inv s' := by
  simp only [step] at run
  split at run
  · rename_i can
    cases run
    apply h.evict
    · intro i e found
      split at found
      · cases found
      · exact found
    · intro t i e works
      apply if_neg
      intro chosen
      -- the thread has no reference, reads nothing in and writes nothing back
      have found := (h.threads t).cached works
      have able := List.all_eq_true.mp can i chosen
      simp only [canEvict, found, decide_eq_true_eq] at able
      have unheld := h.counted.unheld able.2 t
      have ready : s.flags e ≠ reading := by
        intro reading
        rw [reading] at able
        exact absurd able.1 (by decide)
      have notFilling := mt ((h.threads t).reading works).mpr ready
      have idle := calm t i
      cases hpc : s.threads t <;> simp_all [entry, isFilling, holds, pending]
  · cases run

theorem step_inv (calm : Calm s event) (h : Inv s) (run : step event s = some s') : Inv s' := by
  cases event with
  | callWrite | callMark | callSync => exact call_inv h rfl rfl rfl run
  | run t => exact runThread_inv h run calm
  | fault t => exact faultThread_inv h run
  | flush evicted => exact flush_inv calm h run

end Steps

/-! ### Whole runs -/

/-- Nothing is cached yet and no thread is in a call. -/
def cold (mem store : Nat → Nat → Byte) : Shared where
  pages _ := none
  flags _ := 0
  refcount _ := 0
  mem := mem
  store := store
  next := 0
  threads _ := .idle
  panicked := false
  version _ := 0
  completed _ := 0
  stored _ := 0

theorem cold_inv (mem store : Nat → Nat → Byte) : Inv (cold mem store) where
  running := rfl
  old := nofun
  distinct := nofun
  flags := nofun
  threads _ := .of_entry_none rfl
  alone := nofun
  counted _ := ⟨∅, fun _ => by simp [cold, holds], rfl⟩
  completed := nofun
  stored := nofun
  same := nofun
  kept := nofun

theorem write_back_safe {mem store : Nat → Nat → Byte} {s : Shared}
    (reached : Reaches step Calm (cold mem store) s) : Safe s := by
  have inv : Inv s := reached.invariant (cold_inv mem store) step_inv
  exact ⟨inv.kept, inv.same, inv.running⟩

/-- A store of zeroes. -/
def zeroes : Nat → Nat → Byte := fun _ _ => 0

/-- A test for `Calm`, of events that evict nothing. -/
def calmly (s : Shared) : Event → Bool
  | .run t => match s.threads t with
    | .markOnly i => (s.pages i).all fun e => s.flags e &&& Flags.reading == 0
    | .finish _ e _ => s.flags e &&& Flags.dirty == 0 || s.completed e ≤ s.stored e
    | _ => true
  | .flush _ => false
  | _ => true

theorem calm_of_calmly (test : calmly s event = true) : Calm s event := by
  cases event with
  | run t =>
    cases hpc : s.threads t with
    | markOnly i =>
      simp only [Calm, hpc]
      intro e found
      simpa [calmly, hpc, found] using test
    | finish i e rest => simpa [Calm, calmly, hpc] using test
    | _ => simp [Calm, hpc]
  | flush => simp [calmly] at test
  | _ => trivial

/-- A write and a write-back, and a second write before the write-back has reached
the disk. -/
theorem write_back_safe_twice : ∃ s, Reaches step Calm (cold zeroes zeroes) s ∧
    s.stored 0 = 3 ∧ s.store 0 0 = 8 ∧ Safe s := by
  obtain ⟨s, reached, stored, store⟩ : ∃ s, Reaches step (fun s k => calmly s k = true)
    (cold zeroes zeroes) s ∧
      s.stored 0 = 3 ∧ s.store 0 0 = 8 := exists_of_run
    [.callWrite 0 0 0 [7], .run 0, .run 0, .run 0, .run 0, .run 0, .run 0, .run 0, .run 0,
      .callSync 1 [0], .run 1, .callWrite 0 0 0 [8], .run 0, .run 0, .run 0, .run 1,
        .run 1] (by decide +kernel)
  have reached := reached.mono calm_of_calmly
  exact ⟨s, reached, stored, store, write_back_safe reached⟩

/-- The thread that takes a step. -/
def Event.thread : Event → Option Nat
  | .callWrite t _ _ _ | .callMark t _ | .callSync t _ | .run t | .fault t => some t
  | .flush _ => none

theorem step_threads (run : step event s = some s') (ht : event.thread ≠ some t) :
    s'.threads t = s.threads t := by
  cases event
  all_goals
    simp only [Event.thread, ne_eq, Option.some.injEq] at ht
    simp only [step, call, runThread, faultThread] at run
    repeat' split at run
    all_goals
      cases run <;> simp [Shared.setPc, Shared.setFlags, Ne.symm ht]

theorem run_threads {events : List Event} (ht : ∀ event ∈ events, event.thread ≠ some t)
    (hrun : run step (fun _ _ => True) events s = some s') : s'.threads t = s.threads t := by
  induction events generalizing s with
  | nil =>
    cases hrun
    rfl
  | cons event rest ih =>
    rw [List.forall_mem_cons] at ht
    obtain ⟨s₁, first, hrun⟩ := bind_eq_some_iff.mp hrun
    exact (ih ht.2 hrun).trans (step_threads first ht.1)

/-- Thread 0 writes, and thread 1 starts a write-back. After the disk has the bytes,
thread 0 writes again and marks the entry, and then thread 1 stores its flags. -/
def loseMark : List Event :=
  [.callWrite 0 0 0 [7], .run 0, .run 0, .run 0, .run 0, .run 0, .run 0, .run 0, .run 0,
    .callSync 1 [0], .run 1, .run 1, .callWrite 0 0 0 [8], .run 0, .run 0, .run 0, .run 0,
      .run 1, .run 1]

/-- The entry is evicted while thread 1 writes it back. -/
def evictEarly : List Event :=
  [.callWrite 0 0 0 [7], .run 0, .run 0, .run 0, .run 0, .run 0, .run 0, .run 0, .run 0,
    .callSync 1 [0], .run 1, .flush [0], .run 1, .run 1]

theorem not_write_back_safe : (∃ s, Reaches step (fun _ _ => True) (cold zeroes zeroes) s ∧
    s.pages 0 = some 0 ∧
      s.mem 0 0 = 8 ∧ s.store 0 0 = 7 ∧ ¬ NothingLost s) ∧
    ∃ s, Reaches step (fun _ _ => True) (cold zeroes zeroes) s ∧ s.panicked = true := by
  constructor
  · have facts : (run step (fun _ _ => True) loseMark (cold zeroes zeroes)).any (fun s =>
        (s.pages 0 = some 0 ∧ s.mem 0 0 = 8 ∧ s.store 0 0 = 7) ∧
        (s.stored 0 = 2 ∧ s.completed 0 = 3 ∧ s.flags 0 = 0) ∧ s.threads 0 = .idle ∧
          s.threads 1 = .idle) =
        true := by decide +kernel
    obtain ⟨s, hrun, facts⟩ := (Option.any_eq_true ..).mp facts
    obtain ⟨⟨found, mem, store⟩, ⟨stored, completed, flags⟩, first, second⟩ :=
      of_decide_eq_true facts
    refine ⟨s, .of_run .init hrun, found, mem, store, fun kept => ?_⟩
    rcases kept 0 0 found (by omega) with dirty | ⟨t, writes⟩
    · simp [flags] at dirty
    · have idle : s.threads t = .idle := by
        by_cases h₀ : t = 0
        · exact h₀ ▸ first
        · by_cases h₁ : t = 1
          · exact h₁ ▸ second
          · have ht : ∀ event ∈ loseMark, event.thread ≠ some t := by
              simp [loseMark, Event.thread, Ne.symm h₀, Ne.symm h₁]
            exact run_threads ht hrun
      simp [idle, writingBack] at writes
  · exact exists_of_run evictEarly (by decide +kernel)

end BadgerOS.WriteBack
