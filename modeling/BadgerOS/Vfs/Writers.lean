import BadgerOS.Lib.Interleaving
import BadgerOS.Vfs.File

/-!
# Concurrent writes of one file

Any number of threads write through the handles of one vnode. A call holds the
lock of its handle from beginning to end; each section under the vnode's lock is
one step.
-/

namespace BadgerOS.Vfs

open Fallible Interleaving Function

/-- The next section of a thread's `write`. -/
inductive WritePc where
  /-- It is in no call. -/
  | idle
  | append (h : Nat) (wdata : List Byte)
  | shared (h : Nat) (wdata : List Byte)
  | exclusive (h : Nat) (wdata : List Byte) (newOff : Nat)
  deriving DecidableEq, Repr

def WritePc.handle : WritePc → Option Nat
  | .idle => none
  | .append h _ | .shared h _ | .exclusive h _ _ => some h

structure Writers where
  files : Files
  /-- The thread that holds the `flags` lock of a handle. -/
  owner : Nat → Option Nat
  threads : Nat → WritePc
  -- History: offset and length of each completed write, added up.
  ends : List Nat

namespace Writers

/-- Thread `i` goes on with another section. -/
def goOn (s : Writers) (i : Nat) (pc : WritePc) : Writers :=
  { s with threads := update s.threads i pc }

/-- Thread `i` returns and releases its handle. -/
def leave (s : Writers) (i h : Nat) : Writers :=
  { s.goOn i .idle with owner := update s.owner h none }

/-- The write of thread `i` has stored its bytes up to `stop`. -/
def complete (s : Writers) (i h stop : Nat) : Writers :=
  { s.leave i h with ends := stop :: s.ends }

/-- Run one section. An error ends the call, a panic ends everything. -/
def runSection {α : Type} (s : Writers) (i h : Nat) (m : Kernel α) (next : Writers → α → Writers) :
    Option Writers :=
  (checkEio m s.files).map fun (r, files) =>
    match r with
    | .error _ => { s with files := files }.leave i h
    | .ok a => next { s with files := files } a

end Writers

inductive WriteEvent where
  /-- Thread `i` calls `write` on handle `h`: it takes the handle's lock and checks it. -/
  | call (i h : Nat) (wdata : List Byte)
  | run (i : Nat)
  /-- `get_size` under the vnode's lock. -/
  | getSize
  deriving DecidableEq, Repr

def Writers.step (event : WriteEvent) (s : Writers) : Option Writers :=
  match event with
  | .call i h wdata =>
    if s.threads i = .idle ∧ s.owner h = none then
      match writeMode h s.files with
      | some (.ok append, _) =>
        some { s.goOn i (if append then .append h wdata else .shared h wdata) with
          owner := update s.owner h (some i) }
      | some (.error _, _) => some s
      | none => none
    else none
  | .run i =>
    match s.threads i with
    | .idle => none
    | .append h wdata =>
      s.runSection i h (appendWrite h wdata) fun t _ => t.complete i h (s.files.size + wdata.length)
    | .shared h wdata =>
      s.runSection i h (regularShared h wdata) fun t measured =>
        match measured with
        | .written _ => t.complete i h ((s.files.handles h).offset + wdata.length)
        | .mustGrow newOff => t.goOn i (.exclusive h wdata newOff)
    | .exclusive h wdata newOff =>
      s.runSection i h (regularExclusive h wdata newOff) fun t _ =>
        t.complete i h ((s.files.handles h).offset + wdata.length)
  | .getSize => some s

variable {α : Type} {m : Kernel α} {Q : α → Files → Prop} {E : Files → Prop} {newOff : Nat}
  {files : Files}

section Sections

variable {s : Files} {h : Nat} {wdata : List Byte}

/-- The other handles are as before. -/
def SameOthers (h : Nat) (s t : Files) : Prop := ∀ k, k ≠ h → t.handles k = s.handles k

theorem SameOthers.setOffset {t : Files} (same : SameOthers h s t) (offset : Nat) :
    SameOthers h s { t with
      handles := update t.handles h { t.handles h with offset := offset } } := by
  intro k hk
  dsimp only
  rw [update_of_ne hk]
  exact same k hk

theorem checkEio_spec (spec : wlp m Q E s) (stable : ∀ t, E t → E { t with isReadOnly := true }) :
    wlp (checkEio m) Q E s := by
  intro r t run
  unfold checkEio at run
  split at run
  · rename_i failed
    cases run
    exact stable _ (spec _ _ failed)
  · exact spec r t run

theorem appendWrite_spec : wlp (appendWrite h wdata) (fun _ t => t.size = s.size + wdata.length ∧
    SameOthers h s t)
      (fun t => s.size ≤ t.size ∧ SameOthers h s t) s := by
  have moved := SameOthers.setOffset (t := s) (h := h) (fun _ _ => rfl) (s.size + wdata.length)
  simp only [appendWrite, unwrapCache, checkedAdd, resizeOps, setOffset, setCache, wlp_bind,
    wlp_get, wlp_lift]
  intro cache _
  split
  · simp only [wlp_bind, wlp_pure, wlp_modify, wlp_liftExcept, true_and]
    exact ⟨fun _ _ => moved, fun _ _ => ⟨Nat.le_add_right .., moved⟩⟩
  · rw [wlp_fail]
    exact ⟨le_rfl, fun _ _ => rfl⟩

theorem finishWrite_spec : wlp (finishWrite h wdata newOff) (fun _ t => t.size = s.size ∧
    SameOthers h s t)
      (fun t => t.size = s.size ∧ SameOthers h s t) s := by
  have moved := SameOthers.setOffset (t := s) (h := h) (fun _ _ => rfl) newOff
  simp only [finishWrite, unwrapCache, setOffset, setCache, wlp_bind, wlp_get, wlp_lift, wlp_pure,
    wlp_modify, wlp_liftExcept, true_and]
  exact fun cache _ => ⟨fun _ _ => moved, fun _ _ _ _ => rfl⟩

/-- A write that needs no more room ends inside the file. One that does changes
nothing yet. -/
theorem regularShared_spec : wlp (regularShared h wdata) (fun measured t => t.size = s.size ∧
    SameOthers h s t ∧
        match measured with
        | .written _ => (s.handles h).offset + wdata.length ≤ s.size
        | .mustGrow newOff => newOff = (s.handles h).offset + wdata.length ∧
          t.handles = s.handles)
      (fun t => t.size = s.size ∧ SameOthers h s t) s := by
  simp only [regularShared, unwrapCache, checkedAdd, wlp_bind, wlp_get, wlp_lift]
  intro cache _
  split
  · rw [wlp_pure]
    split
    · rw [wlp_pure]
      exact ⟨rfl, fun _ _ => rfl, rfl, rfl⟩
    · rename_i inside
      rw [wlp_bind]
      apply finishWrite_spec.imp
      intro n t kept
      rw [wlp_pure]
      exact ⟨kept.1, kept.2, Nat.le_of_not_lt inside⟩
  · rw [wlp_fail]
    exact ⟨rfl, fun _ _ => rfl⟩

theorem regularExclusive_spec : wlp (regularExclusive h wdata newOff)
    (fun _ t => t.size = newOff ∧ SameOthers h s t)
      (fun t => t.size = newOff ∧ SameOthers h s t) s := by
  simp only [regularExclusive, unwrapCache, resizeOps, setCache, wlp_bind, wlp_get,
    wlp_lift, wlp_modify]
  intro cache _
  exact finishWrite_spec

end Sections

/-- A thread in a call holds the lock of its handle, and knows where a write that
must grow the file will end. -/
structure Writers.Inv (s : Writers) : Prop where
  owns {i h : Nat} (busy : (s.threads i).handle = some h) : s.owner h = some i
  stop {i h newOff : Nat} {wdata : List Byte} (pc : s.threads i = .exclusive h wdata newOff) :
    newOff = (s.files.handles h).offset + wdata.length
  ends : ∀ e ∈ s.ends, e ≤ s.files.size

/-- The section of a write under the exclusive lock finds the file no longer than
the write will make it. -/
def Writers.Grows (s : Writers) : WriteEvent → Prop
  | .run i => match s.threads i with
    | .exclusive _ _ newOff => s.files.size ≤ newOff
    | _ => True
  | _ => True

instance (s : Writers) (event : WriteEvent) : Decidable (s.Grows event) := by
  unfold Writers.Grows
  split
  · split <;> infer_instance
  · infer_instance

namespace Writers

variable {s s' : Writers} {i h : Nat}

section

variable (inv : s.Inv) (own : s.owner h = some i)
include inv own

section

variable (others : SameOthers h s.files files) (size : s.files.size ≤ files.size)
include others size

/-- What a section of thread `i` leaves of the invariant when the thread goes on
or returns: the other threads keep their handles. -/
theorem Inv.goOn {pc : WritePc} (handle : pc.handle = some h)
    (stop : ∀ {k newOff wdata}, pc = .exclusive k wdata newOff → newOff =
    (files.handles k).offset + wdata.length) : Inv ({ s with files := files }.goOn i pc) := by
  constructor
  · intro j k busy
    by_cases hj : j = i
    · subst hj
      simp only [Writers.goOn, update_self] at busy
      rw [handle] at busy
      cases busy
      exact own
    · simp only [Writers.goOn, update_of_ne hj] at busy
      exact inv.owns busy
  · intro j k newOff wdata at_
    by_cases hj : j = i
    · subst hj
      simp only [Writers.goOn, update_self] at at_
      exact stop at_
    · simp only [Writers.goOn, update_of_ne hj] at at_
      have other : k ≠ h := by
        rintro rfl
        have := inv.owns (by rw [at_]; rfl)
        rw [own] at this
        cases this
        exact hj rfl
      show newOff = (files.handles k).offset + wdata.length
      rw [others k other]
      exact inv.stop at_
  · exact fun e he => (inv.ends e he).trans size

theorem Inv.leave : Inv ({ s with files := files }.leave i h) := by
  have other : ∀ {j k}, j ≠ i → (s.threads j).handle = some k → k ≠ h := by
    rintro j k hj busy rfl
    rw [inv.owns busy] at own
    cases own
    exact hj rfl
  constructor
  · intro j k busy
    by_cases hj : j = i
    · subst hj
      simp [Writers.leave, Writers.goOn, WritePc.handle] at busy
    · simp only [Writers.leave, Writers.goOn, update_of_ne hj] at busy
      show update s.owner h none k = some j
      rw [update_of_ne (other hj busy)]
      exact inv.owns busy
  · intro j k newOff wdata at_
    by_cases hj : j = i
    · subst hj
      simp [Writers.leave, Writers.goOn] at at_
    · simp only [Writers.leave, Writers.goOn, update_of_ne hj] at at_
      show newOff = (files.handles k).offset + wdata.length
      rw [others k (other hj (by rw [at_]; rfl))]
      exact inv.stop at_
  · exact fun e he => (inv.ends e he).trans size

theorem Inv.complete {stop : Nat} (inside : stop ≤ files.size) :
    Inv ({ s with files := files }.complete i h stop) := by
  have left := inv.leave own others size
  constructor
  · exact left.owns
  · exact left.stop
  · intro e he
    rcases List.mem_cons.mp he with rfl | he
    · exact inside
    · exact left.ends e he

end

end

/-- A section keeps the invariant, and the file does not become shorter, if that
holds of all it can return. -/
theorem runSection_keeps {next : Writers → α → Writers} (run : s.runSection i h m next = some s')
    (spec : wlp m Q E s.files) (stable : ∀ t, E t → E { t with isReadOnly := true })
    {I : Writers → Prop} (ok : ∀ a files, Q a files → I (next { s with files := files } a))
    (error : ∀ files, E files → I ({ s with files := files }.leave i h)) : I s' := by
  obtain ⟨⟨r, files⟩, ran, rfl⟩ := Option.map_eq_some_iff.mp run
  have key := checkEio_spec spec stable r files ran
  cases r with
  | error e => exact error files key
  | ok a => exact ok a files key

theorem Inv.call {pc : WritePc} (inv : s.Inv) (free : s.owner h = none)
    (handle : pc.handle = some h) (begins : ∀ k wdata newOff, pc ≠ .exclusive k wdata newOff) :
    Inv { s.goOn i pc with owner := update s.owner h (some i) } := by
  constructor
  · intro j k busy
    by_cases hj : j = i
    · subst hj
      simp only [Writers.goOn, update_self] at busy
      rw [handle] at busy
      cases busy
      exact update_self ..
    · simp only [Writers.goOn, update_of_ne hj] at busy
      have other : k ≠ h := by
        rintro rfl
        rw [inv.owns busy] at free
        cases free
      show update s.owner h (some i) k = some j
      rw [update_of_ne other]
      exact inv.owns busy
  · intro j k newOff wdata at_
    by_cases hj : j = i
    · subst hj
      simp only [Writers.goOn, update_self] at at_
      exact absurd at_ (begins k wdata newOff)
    · simp only [Writers.goOn, update_of_ne hj] at at_
      exact inv.stop at_
  · exact inv.ends

theorem Inv.step (inv : s.Inv) {event : WriteEvent} (ok : s.Grows event)
    (run : Writers.step event s = some s') : s'.Inv ∧ s.files.size ≤ s'.files.size := by
  cases event with
  | getSize =>
    cases run
    exact ⟨inv, le_rfl⟩
  | call i h wdata =>
    simp only [Writers.step] at run
    split at run
    · rename_i free
      split at run
      · rename_i append _ _
        cases run
        constructor
        · apply inv.call free.2
          · cases append <;> rfl
          · cases append <;> nofun
        · exact le_rfl
      · cases run
        exact ⟨inv, le_rfl⟩
      · cases run
    · cases run
  | run i =>
    simp only [Writers.step] at run
    cases pc : s.threads i with
    | idle =>
      rw [pc] at run
      cases run
    | append h wdata =>
      rw [pc] at run
      have own := inv.owns (by rw [pc]; rfl)
      apply runSection_keeps run appendWrite_spec (fun _ kept => kept)
       
      · rintro _ files ⟨size, others⟩
        exact ⟨inv.complete own others (by omega) (by omega), by show _ ≤ files.size; omega⟩
      · rintro files ⟨size, others⟩
        exact ⟨inv.leave own others size, size⟩
    | shared h wdata =>
      rw [pc] at run
      have own := inv.owns (by rw [pc]; rfl)
      apply runSection_keeps run regularShared_spec (fun _ kept => kept)
       
      · rintro measured files ⟨size, others, result⟩
        cases measured with
        | written count =>
          exact ⟨inv.complete own others size.ge (by omega), size.ge⟩
        | mustGrow newOff =>
          constructor
          · apply inv.goOn own others size.ge rfl
            rintro k newOff' wdata' ⟨⟩
            rw [result.2]
            exact result.1
          · exact size.ge
      · rintro files ⟨size, others⟩
        exact ⟨inv.leave own others size.ge, size.ge⟩
    | exclusive h wdata newOff =>
      rw [pc] at run
      have own := inv.owns (by rw [pc]; rfl)
      have stop := inv.stop pc
      have grows : s.files.size ≤ newOff := by simpa only [Writers.Grows, pc] using ok
      apply runSection_keeps run regularExclusive_spec (fun _ kept => kept)
       
      · rintro _ files ⟨rfl, others⟩
        exact ⟨inv.complete own others grows stop.ge, grows⟩
      · rintro files ⟨rfl, others⟩
        exact ⟨inv.leave own others grows, grows⟩

/-- No call is in progress, and none was completed. -/
def Fresh (s : Writers) : Prop := (∀ i, s.threads i = .idle) ∧ s.ends = []

theorem Fresh.inv (fresh : s.Fresh) : s.Inv := by
  constructor
  · intro i h busy
    rw [fresh.1 i] at busy
    cases busy
  · intro i h newOff wdata pc
    rw [fresh.1 i] at pc
    cases pc
  · rw [fresh.2]
    nofun

/-- The file does not become shorter between two states of a run, and all
completed writes are inside it. -/
def KeepsLength (s s' : Writers) : Prop := s.files.size ≤ s'.files.size ∧
    ∀ e ∈ s'.ends, e ≤ s'.files.size

theorem writers_keep_length {s₀ : Writers} (fresh : s₀.Fresh)
    (reached : Reaches Writers.step Writers.Grows s₀ s)
    (later : Reaches Writers.step Writers.Grows s s') : s.KeepsLength s' := by
  have inv : s.Inv := reached.invariant fresh.inv fun ok inv run => (inv.step ok run).1
  have key : s'.Inv ∧ s.files.size ≤ s'.files.size := by
    apply later.invariant ⟨inv, le_rfl⟩
    rintro k t t' ok ⟨inv, size⟩ run
    have next := inv.step ok run
    exact ⟨next.1, size.trans next.2⟩
  exact ⟨key.2, key.1.ends⟩

/-- An empty file. Handle 1 appends, the others do not. -/
def empty : Writers where
  files :=
    { type := .regular, isReadOnly := false, size := 0, pagecache := some []
      handles :=
        fun h => ⟨0, if h = 1 then OFlags.readWrite ||| OFlags.append else OFlags.readWrite⟩ }
  owner _ := none
  threads _ := .idle
  ends := []

theorem empty_fresh : empty.Fresh := ⟨fun _ => rfl, rfl⟩

/-- Threads 0 and 2 both find that they must grow the file, and thread 1 appends when
thread 0 has done so. -/
theorem writers_keep_length_two : ∃ s s', Reaches Writers.step Writers.Grows empty s ∧
    Reaches Writers.step Writers.Grows s s' ∧ s.files.size = 1 ∧ s'.ends = [4, 2, 1] ∧
      s.KeepsLength s' := by
  have facts : (run Writers.step Writers.Grows
      [.call 0 0 [7], .run 0, .call 2 2 [5, 6, 7, 8], .run 2, .run 0] empty).map
        (fun s => (s.files.size,
        (run Writers.step Writers.Grows [.call 1 1 [9], .run 1, .run 2] s).map fun s' => s'.ends)) =
      some (1, some [4, 2, 1]) := by decide +kernel
  obtain ⟨s, hrun, facts⟩ := Option.map_eq_some_iff.mp facts
  obtain ⟨size, facts⟩ := Prod.mk.inj facts
  obtain ⟨s', hrun', ends⟩ := Option.map_eq_some_iff.mp facts
  have reached : Reaches Writers.step Writers.Grows empty s := .of_run .init hrun
  have later : Reaches Writers.step Writers.Grows s s' := .of_run .init hrun'
  exact ⟨s, s', reached, later, size, ends, writers_keep_length empty_fresh reached later⟩

/-- Thread 0 finds that it must grow the file to one byte. Thread 1 appends two
bytes before thread 0 has the lock again, and thread 0 cuts one of them off. -/
theorem not_writers_keep_length : ∃ s s', Reaches Writers.step (fun _ _ => True) empty s ∧
    Reaches Writers.step (fun _ _ => True) s s' ∧ s.files.size = 2 ∧ s'.files.size = 1 ∧
    s'.ends = [1, 2] ∧ ¬ s.KeepsLength s' := by
  have facts : (run Writers.step (fun _ _ => True)
      [.call 0 0 [7], .run 0, .call 1 1 [8, 9], .run 1] empty).map (fun s => (s.files.size,
        (run Writers.step (fun _ _ => True) [.run 0] s).map fun s' => (s'.files.size, s'.ends))) =
      some (2, some (1, [1, 2])) := by decide +kernel
  obtain ⟨s, hrun, facts⟩ := Option.map_eq_some_iff.mp facts
  obtain ⟨size, facts⟩ := Prod.mk.inj facts
  obtain ⟨s', hrun', facts⟩ := Option.map_eq_some_iff.mp facts
  obtain ⟨size', ends⟩ := Prod.mk.inj facts
  refine ⟨s, s', .of_run .init hrun, .of_run .init hrun', size, size', ends, fun keeps => ?_⟩
  have := keeps.1
  omega

end Writers

end BadgerOS.Vfs
