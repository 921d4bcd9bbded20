import BadgerOS.Lib.Interleaving

/-!
# The table of open vnodes

Any number of threads run `DentCache::open_vnode`, `Vfs::open` and `make_file` and
drop the vnodes they got, on a filesystem with inode numbers. Each section under
a lock is one step. The table has weak references: a vnode whose strong count is
zero is dead at once, but its `Drop` still has to sync, to close and to remove the
inode number from the table.
-/

namespace BadgerOS.Vfs

open Interleaving Function Option Finset

/-- The next step of a thread. `dent` is the directory cache entry whose `vnode`
the thread has locked. -/
inductive OpenPc where
  | idle
  /-- `open_vnode`, with the lock shared and then exclusive. -/
  | dentShared (d : Nat)
  | dentExclusive (d : Nat)
  /-- `Vfs::open`, with the lock shared and then exclusive. -/
  | openShared (ino : Nat) (dent : Option Nat)
  | openExclusive (ino : Nat) (dent : Option Nat)
  /-- `open_vnode` stores the reference. -/
  | dentStore (d v : Nat)
  /-- `VNode::drop`: sync and close, and then remove. -/
  | closing (v : Nat)
  | removing (v : Nat)
  deriving DecidableEq, Repr

structure VNodes where
  /-- `Vfs::vnodes`. -/
  table : Nat → Option Nat
  ino : Nat → Nat
  strong : Nat → Nat
  /-- The next vnode that is allocated. -/
  next : Nat
  /-- `DentCache::vnode`, and the thread that has locked it. -/
  dentVnode : Nat → Option Nat
  dentLock : Nat → Option Nat
  threads : Nat → OpenPc
  /-- How many of the strong references to a vnode each thread has. -/
  arcs : Nat → Nat → Nat

inductive OpenEvent where
  /-- Thread `t` calls `open_vnode`, or `Vfs::open` for a symbolic link. -/
  | openVnode (t d : Nat)
  | openLink (t ino : Nat)
  /-- `make_file` or `o_creat_helper` inserts the vnode of a new file. -/
  | makeFile (t d : Nat)
  | run (t : Nat)
  /-- The filesystem fails to open the file. -/
  | fault (t : Nat)
  /-- Thread `t` clones a reference for thread `t'`. -/
  | clone (t t' v : Nat)
  | drop (t v : Nat)
  deriving DecidableEq, Repr

variable {ino : Nat}

namespace VNodes

def setPc (s : VNodes) (t : Nat) (pc : OpenPc) : VNodes :=
  { s with threads := update s.threads t pc }

/-- `Weak::upgrade`, without the count. -/
def upgrade (s : VNodes) (weak : Option Nat) : Option Nat := weak.filter fun v => 0 < s.strong v

def getVnode (s : VNodes) (ino : Nat) : Option Nat := s.upgrade (s.table ino)

def setArcs (s : VNodes) (t v n : Nat) : VNodes :=
  { s with arcs := update s.arcs t (update (s.arcs t) v n) }

/-- One more strong reference, that thread `t` gets. -/
def retain (s : VNodes) (t v : Nat) : VNodes :=
  { s with strong := update s.strong v (s.strong v + 1) }.setArcs t v (s.arcs t v + 1)

/-- One of the strong references of thread `t` less. -/
def release (s : VNodes) (t v : Nat) : VNodes :=
  { s with strong := update s.strong v (s.strong v - 1) }.setArcs t v (s.arcs t v - 1)

/-- What is to be done when `Vfs::open` has returned `v`. -/
def returned (v : Nat) : Option Nat → OpenPc
  | none => .idle
  | some d => .dentStore d v

/-- A new vnode that thread `t` has the only strong reference to, and the table a
weak one. -/
def create (s : VNodes) (t ino : Nat) : VNodes :=
  { s with
    table := update s.table ino (some s.next)
    ino := update s.ino s.next ino
    strong := update s.strong s.next 1
    next := s.next + 1 }.setArcs t s.next 1

def lockDent (s : VNodes) (d : Nat) (holder : Option Nat) : VNodes :=
  { s with dentLock := update s.dentLock d holder }

def storeDent (s : VNodes) (d v : Nat) : VNodes :=
  { s with dentVnode := update s.dentVnode d (some v) }

section Steps

variable (dentIno : Nat → Nat)

def run (t : Nat) (s : VNodes) : Option VNodes :=
  match s.threads t with
  | .idle => none
  | .dentShared d =>
    if s.dentLock d ≠ none then none
    else match s.upgrade (s.dentVnode d) with
      | some v => some ((s.retain t v).setPc t .idle)
      | none => some (s.setPc t (.dentExclusive d))
  | .dentExclusive d =>
    if s.dentLock d ≠ none then none
    else match s.upgrade (s.dentVnode d) with
      | some v => some ((s.retain t v).setPc t .idle)
      | none => some ((s.lockDent d (some t)).setPc t (.openShared (dentIno d) (some d)))
  | .openShared ino dent =>
    match s.getVnode ino with
    | some v => some ((s.retain t v).setPc t (returned v dent))
    | none => some (s.setPc t (.openExclusive ino dent))
  | .openExclusive ino dent =>
    match s.getVnode ino with
    | some v => some ((s.retain t v).setPc t (returned v dent))
    | none => some ((s.create t ino).setPc t (returned s.next dent))
  | .dentStore d v => some (((s.storeDent d v).lockDent d none).setPc t .idle)
  | .closing v => some (s.setPc t (.removing v))
  | .removing v => some { s.setPc t .idle with table := update s.table (s.ino v) none }

def step (event : OpenEvent) (s : VNodes) : Option VNodes :=
  match event with
  | .openVnode t d => if s.threads t = .idle then some (s.setPc t (.dentShared d)) else none
  | .openLink t ino => if s.threads t = .idle then some (s.setPc t (.openShared ino none)) else none
  | .makeFile t d =>
    if s.threads t = .idle then some ((s.create t (dentIno d)).storeDent d s.next) else none
  | .run t => s.run dentIno t
  | .fault t =>
    match s.threads t with
    | .openExclusive _ none => some (s.setPc t .idle)
    | .openExclusive _ (some d) => some ((s.lockDent d none).setPc t .idle)
    | _ => none
  | .clone t t' v => if 0 < s.arcs t v then some (s.retain t' v) else none
  | .drop t v =>
    if s.threads t = .idle ∧ 0 < s.arcs t v then
      -- the thread that drops the last reference runs `Drop`
      some ((s.release t v).setPc t (if s.strong v = 1 then .closing v else .idle))
    else none

/-- The inode number of a new file is not that of an open vnode, and no vnode was
opened again before its predecessor removes the inode number. -/
def Calm (s : VNodes) : OpenEvent → Prop
  | .makeFile _ d => ∀ v, s.ino v = dentIno d → s.strong v = 0
  | .run t => match s.threads t with
    | .removing v => ∀ w, s.table (s.ino v) = some w → s.strong w = 0
    | _ => True
  | _ => True

end Steps

structure OneLive (s : VNodes) : Prop where
  unique {v w : Nat} (live : 0 < s.strong v) (live' : 0 < s.strong w) (same : s.ino v = s.ino w) :
    v = w
  found {v : Nat} (live : 0 < s.strong v) : s.getVnode (s.ino v) = some v

/-- The filesystem is mounted: its root is open. -/
def mounted (root : Nat) : VNodes where
  table := update (fun _ => none) root (some 0)
  ino _ := root
  strong := update (fun _ => 0) 0 1
  next := 1
  dentVnode _ := none
  dentLock _ := none
  threads _ := .idle
  arcs _ _ := 0

/-! ### The invariant -/

structure Inv (s : VNodes) : Prop where
  found {v : Nat} (live : 0 < s.strong v) : s.table (s.ino v) = some v
  old {v : Nat} (live : 0 < s.strong v) : v < s.next
  /-- References that any threads have are counted. -/
  held (v : Nat) (threads : Finset Nat) : ∑ t ∈ threads, s.arcs t v ≤ s.strong v

section Changes

variable {s : VNodes} {t v : Nat}

theorem setArcs_self (n t' : Nat) : (s.setArcs t v n).arcs t' v = update (fun t' => s.arcs t' v)
    t n t' := by
  by_cases ht : t' = t
  · subst ht
    simp [setArcs]
  · simp [setArcs, ht]

theorem setArcs_of_ne {w : Nat} (n t' : Nat) (hw : w ≠ v) :
    (s.setArcs t v n).arcs t' w = s.arcs t' w := by
  by_cases ht : t' = t
  · subst ht
    simp [setArcs, hw]
  · simp [setArcs, ht]

/-- One reference more or less of one thread, in a sum over some of the threads. -/
theorem sum_update_le (f : Nat → Nat) (t n : Nat) (threads : Finset Nat) :
    ∑ t' ∈ threads, update f t n t' + f t ≤ ∑ t' ∈ insert t threads, f t' + n := by
  have split : ∀ g : Nat → Nat, ∑ t' ∈ insert t threads,
      g t' = g t + ∑ t' ∈ threads.erase t, g t' := by
    intro g
    rw [← insert_erase (mem_insert_self t threads), sum_insert (by simp)]
    simp
  have rest : ∑ t' ∈ threads.erase t, update f t n t' = ∑ t' ∈ threads.erase t, f t' := by
    apply sum_congr rfl
    intro t' mem
    exact update_of_ne (ne_of_mem_erase mem) _ _
  have more : ∑ t' ∈ threads, update f t n t' ≤ ∑ t' ∈ insert t threads,
      update f t n t' :=
    sum_le_sum_of_subset (subset_insert t threads)
  rw [split, rest, update_self] at more
  rw [split]
  omega

theorem Inv.live_of_arcs (h : Inv s) (has : 0 < s.arcs t v) : 0 < s.strong v := by
  have := h.held v {t}
  rw [sum_singleton] at this
  omega

theorem Inv.setPc (h : Inv s) (pc : OpenPc) : Inv (s.setPc t pc) := ⟨h.found, h.old, h.held⟩

theorem Inv.lockDent (h : Inv s) (d : Nat) (holder : Option Nat) : Inv (s.lockDent d holder) :=
  ⟨h.found, h.old, h.held⟩

theorem Inv.storeDent (h : Inv s) (d : Nat) : Inv (s.storeDent d v) := ⟨h.found, h.old, h.held⟩

theorem upgrade_eq_some {weak : Option Nat} : s.upgrade weak = some v ↔ weak = some v ∧
    0 < s.strong v := by
  simp [upgrade, filter_eq_some_iff]

section

variable (h : Inv s)
include h

/-- References stay counted if those of a thread change by as much as the count. -/
theorem Inv.held_setArcs {k n : Nat} (le : n + s.strong v ≤ k + s.arcs t v) (w : Nat)
    (threads : Finset Nat) : ∑ t' ∈ threads,
    (s.setArcs t v n).arcs t' w ≤ update s.strong v k w := by
  by_cases hw : w = v
  · subst hw
    simp only [setArcs_self, update_self]
    have := sum_update_le (fun t' => s.arcs t' w) t n threads
    have := h.held w (insert t threads)
    omega
  · simp only [setArcs_of_ne _ _ hw, update_of_ne hw]
    exact h.held w threads

theorem Inv.recount {k n : Nat} (live : 0 < s.strong v) (le : n + s.strong v ≤ k + s.arcs t v) :
    Inv ({ s with strong := update s.strong v k }.setArcs t v n) := by
  have still {w : Nat} (counted : 0 < update s.strong v k w) : 0 < s.strong w := by
    by_cases hw : w = v
    · subst hw
      exact live
    · rwa [update_of_ne hw] at counted
  exact ⟨fun live => h.found (still live), fun live => h.old (still live), h.held_setArcs le⟩

theorem Inv.retain (live : 0 < s.strong v) : Inv (s.retain t v) := h.recount live (by omega)

theorem Inv.release (has : 0 < s.arcs t v) : Inv (s.release t v) := by
  have live := h.live_of_arcs has
  exact h.recount live (by omega)

/-- A vnode is created for an inode number that no live one has. -/
theorem Inv.create (unused : ∀ v, s.ino v = ino → s.strong v = 0) : Inv (s.create t ino) := by
  have dead : s.strong s.next = 0 := by
    by_contra live
    exact absurd (h.old (Nat.pos_of_ne_zero live)) (Nat.lt_irrefl _)
  have still : ∀ {w}, w ≠ s.next → 0 < (s.create t ino).strong w → 0 < s.strong w := by
    intro w hw
    simp [VNodes.create, setArcs, hw]
  constructor
  case found =>
    intro w live
    by_cases hw : w = s.next
    · subst hw
      simp [VNodes.create, setArcs]
    · have live := still hw live
      have other : s.ino w ≠ ino := fun same => live.ne' (unused w same)
      simpa [VNodes.create, setArcs, hw, other] using h.found live
  case old =>
    intro w live
    by_cases hw : w = s.next
    · subst hw
      exact Nat.lt_succ_self _
    · exact Nat.lt_succ_of_lt (h.old (still hw live))
  case held => exact h.held_setArcs (by omega)

/-- The inode number is removed when no live vnode has it. -/
theorem Inv.remove (dead : ∀ w, s.table ino = some w → s.strong w = 0) :
    Inv { s with table := update s.table ino none } where
  found {w} live := by
    have found := h.found live
    have other : s.ino w ≠ ino := by
      rintro rfl
      exact live.ne' (dead w found)
    simpa [other] using found
  old := h.old
  held := h.held

theorem Inv.oneLive : OneLive s where
  unique {v w} live live' same := by
    have found := h.found live
    rw [same, h.found live'] at found
    exact (Option.some.inj found).symm
  found live := upgrade_eq_some.mpr ⟨h.found live, live⟩

/-- If the number is not found, no live vnode has it. -/
theorem Inv.unused (none : s.getVnode ino = none) : ∀ v, s.ino v = ino → s.strong v = 0 := by
  rintro v rfl
  by_contra live
  have found := h.oneLive.found (Nat.pos_of_ne_zero live)
  rw [none] at found
  cases found

end

end Changes

section Runs

variable {dentIno : Nat → Nat} {s s' : VNodes} {t : Nat} {event : OpenEvent}

theorem run_inv (calm : Calm dentIno s (.run t)) (h : Inv s) (hrun : run dentIno t s = some s') :
    Inv s' := by
  unfold run at hrun
  split at hrun
  case h_1 => cases hrun
  case h_2 d pc =>
    split at hrun
    · cases hrun
    · split at hrun <;> cases hrun
      · rename_i v up
        exact (h.retain (upgrade_eq_some.mp up).2).setPc _
      · exact h.setPc _
  case h_3 d pc =>
    split at hrun
    · cases hrun
    · split at hrun <;> cases hrun
      · rename_i v up
        exact (h.retain (upgrade_eq_some.mp up).2).setPc _
      · exact (h.lockDent d _).setPc _
  case h_4 ino dent pc =>
    split at hrun <;> cases hrun
    · rename_i v up
      exact (h.retain (upgrade_eq_some.mp up).2).setPc _
    · exact h.setPc _
  case h_5 ino dent pc =>
    split at hrun <;> cases hrun
    · rename_i v up
      exact (h.retain (upgrade_eq_some.mp up).2).setPc _
    · rename_i none
      exact (h.create (h.unused none)).setPc _
  case h_6 d v pc =>
    cases hrun
    exact ((h.storeDent d).lockDent d _).setPc _
  case h_7 v pc =>
    cases hrun
    exact h.setPc _
  case h_8 v pc =>
    cases hrun
    simp only [Calm, pc] at calm
    exact (h.setPc .idle).remove calm

theorem step_inv (calm : Calm dentIno s event) (h : Inv s)
    (hstep : step dentIno event s = some s') : Inv s' := by
  cases event with
  | openVnode t d | openLink t ino =>
    obtain ⟨-, ⟨⟩⟩ := ite_none_right_eq_some.mp hstep
    exact h.setPc _
  | makeFile t d =>
    obtain ⟨-, ⟨⟩⟩ := ite_none_right_eq_some.mp hstep
    exact (h.create calm).storeDent d
  | run t => exact run_inv calm h hstep
  | fault t =>
    simp only [step] at hstep
    split at hstep <;> cases hstep
    · exact h.setPc _
    · exact (h.lockDent _ _).setPc _
  | clone t t' v =>
    obtain ⟨has, ⟨⟩⟩ := ite_none_right_eq_some.mp hstep
    exact h.retain (h.live_of_arcs has)
  | drop t v =>
    obtain ⟨⟨-, has⟩, ⟨⟩⟩ := ite_none_right_eq_some.mp hstep
    exact (h.release has).setPc _

theorem mounted_inv (root : Nat) : Inv (mounted root) where
  found {v} live := by
    have hv : v = 0 := by
      by_contra hv
      simp [mounted, hv] at live
    simp [mounted, hv]
  old {v} live := by
    have hv : v = 0 := by
      by_contra hv
      simp [mounted, hv] at live
    simp [mounted, hv]
  held v threads := by simp [mounted]

/-- Two vnodes of one inode are not live at once, and a live one is found. -/
theorem vnodes_one_live {root : Nat}
    (reached : Reaches (step dentIno) (Calm dentIno) (mounted root) s) : s.OneLive := by
  have inv : Inv s := reached.invariant (mounted_inv root) step_inv
  exact inv.oneLive

end Runs

/-- A test for `Calm`, of events that make no file. -/
def calmly (s : VNodes) : OpenEvent → Bool
  | .makeFile _ _ => false
  | .run t => match s.threads t with
    | .removing v => (s.getVnode (s.ino v)).isNone
    | _ => true
  | _ => true

theorem calm_of_calmly {dentIno : Nat → Nat} {s : VNodes} {event : OpenEvent}
    (test : calmly s event = true) : Calm dentIno s event := by
  cases event with
  | makeFile => simp [calmly] at test
  | run t =>
    cases hpc : s.threads t with
    | removing v =>
      simp only [Calm, hpc]
      intro w found
      by_contra live
      have up : s.getVnode (s.ino v) = some w :=
        upgrade_eq_some.mpr ⟨found, Nat.pos_of_ne_zero live⟩
      simp [calmly, hpc, up] at test
    | _ => simp [Calm, hpc]
  | _ => trivial

/-- Every entry is a link to inode 5. -/
def links : Nat → Nat := fun _ => 5

/-- Thread 0 opens, drops and removes, and then thread 1 opens. -/
theorem vnodes_one_live_again : ∃ s, Reaches (step links) (Calm links) (mounted 1) s ∧
    s.strong 1 = 0 ∧ s.strong 2 = 1 ∧ s.OneLive := by
  obtain ⟨s, reached, dead, live⟩ : ∃ s, Reaches (step links) (fun s k => calmly s k = true)
    (mounted 1) s ∧
      s.strong 1 = 0 ∧ s.strong 2 = 1 := exists_of_run
    [.openVnode 0 0, .run 0, .run 0, .run 0, .run 0, .run 0, .drop 0 1, .run 0, .run 0,
      .openVnode 1 1, .run 1, .run 1, .run 1, .run 1, .run 1] (by decide +kernel)
  have reached : Reaches (step links) (Calm links) (mounted 1) s := reached.mono calm_of_calmly
  exact ⟨s, reached, dead, live, vnodes_one_live reached⟩

/-- Thread 0 drops its vnode and thread 1 opens the inode before thread 0 removes it
from the table. The vnode of thread 1 is not found, and thread 2 opens another. -/
theorem not_vnodes_one_live : ∃ s, Reaches (step links) (fun _ _ => True) (mounted 1) s ∧
    s.strong 2 = 1 ∧ s.getVnode (s.ino 2) = none ∧
    ∃ s', Reaches (step links) (fun _ _ => True) s s' ∧ 0 < s'.strong 2 ∧ 0 < s'.strong 3 ∧
      s'.ino 2 = s'.ino 3 := by
  obtain ⟨s, reached, live, lost, later⟩ : ∃ s, Reaches (step links) (fun _ _ => True)
    (mounted 1) s ∧
      s.strong 2 = 1 ∧ s.getVnode (s.ino 2) = none ∧ (Interleaving.run (step links)
        (fun _ _ => True) [.openVnode 2 2, .run 2, .run 2, .run 2, .run 2, .run 2] s).any
        (fun s' => 0 < s'.strong 2 ∧ 0 < s'.strong 3 ∧ s'.ino 2 = s'.ino 3) = true :=
          exists_of_run
    [.openVnode 0 0, .run 0, .run 0, .run 0, .run 0, .run 0, .drop 0 1, .run 0,
      .openVnode 1 1, .run 1, .run 1, .run 1, .run 1, .run 1, .run 0] (by decide +kernel)
  exact ⟨s, reached, live, lost, exists_of_run _ later⟩

end VNodes

end BadgerOS.Vfs
