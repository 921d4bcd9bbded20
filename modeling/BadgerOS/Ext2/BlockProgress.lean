import BadgerOS.Ext2.BlockCounts

/-!
# Calls of the block allocator return

A call that has reserved a block walks over the groups until it finds one with a free
block, and other calls may change the counts behind it. Each call changes one count at
most, so the calls that have started all return, in whatever order they run.
-/

namespace BadgerOS.BlockAlloc

open Bitmap Interleaving Nat Pc Stage List

variable {s₀ s s' : E2Fs} {G G' : Group} {p q : Pc} {stage : Stage} {t g b i k : Nat}

/-! ### The walk over the groups -/

/-- Groups to walk over before one with a free block. -/
noncomputable def ahead (counts : List Nat) (g : Nat) : Nat :=
  sInf { d | 0 < counts.getD ((g + d) % counts.length) 0 }

theorem ahead_le (counts : List Nat) (g : Nat) : ahead counts g ≤ counts.length := by
  by_cases some : ∃ d, 0 < counts.getD ((g + d) % counts.length) 0
  · obtain ⟨d, positive⟩ := some
    have le : ahead counts g ≤ d % counts.length := by
      apply Nat.sInf_le
      change 0 < counts.getD ((g + d % counts.length) % counts.length) 0
      rwa [add_mod_mod]
    cases counts with
    | nil => cases positive
    | cons => exact le_trans le (le_of_lt (mod_lt _ (succ_pos _)))
  · have none : { d | 0 < counts.getD ((g + d) % counts.length) 0 } = ∅ :=
      Set.eq_empty_of_forall_notMem fun d positive => some ⟨d, positive⟩
    rw [ahead, none, Nat.sInf_empty]
    exact zero_le _

theorem ahead_next {counts : List Nat} (g_lt : g < counts.length) (full : counts[g]? = some 0)
    (k_lt : k < counts.length) (some : 0 < counts.getD k 0) :
    ahead counts ((1 + g) % counts.length) + 1 ≤ ahead counts g := by
  have found : { d | 0 < counts.getD ((g + d) % counts.length) 0 }.Nonempty := by
    refine ⟨k + (counts.length - g), ?_⟩
    have eq : g + (k + (counts.length - g)) = k + counts.length := by omega
    change 0 < counts.getD ((g + (k + (counts.length - g))) % counts.length) 0
    rw [eq, add_mod_right, mod_eq_of_lt k_lt]
    exact some
  have mem : 0 < counts.getD ((g + ahead counts g) % counts.length) 0 := sInf_mem found
  cases eq : ahead counts g with
  | zero =>
    rw [eq, add_zero, mod_eq_of_lt g_lt, getD_eq_getElem?_getD, full] at mem
    cases mem
  | succ d =>
    apply succ_le_succ
    apply Nat.sInf_le
    change 0 < counts.getD (((1 + g) % counts.length + d) % counts.length) 0
    rw [mod_add_mod, show 1 + g + d = g + (d + 1) by omega, ← eq]
    exact mem

/-! ### What calls have to do -/

/-- Whether a call still has to change a count. -/
def Pc.pending : Pc → Nat
  | .reserve _ => 1
  | .at _ stage => match stage with
    | .storeTaken _ | .storeGiven _ | .add | .unlock (.allocated _) | .unlock .freed
    | .drop (.allocated _) | .drop .freed => 0
    | _ => 1
  | _ => 0

/-- Steps in a group, or up to the next one. -/
def Stage.rest (words : Nat) : Stage → Nat
  | .unlock .retry => words + 11
  | .drop .retry => words + 10
  | .get _ => words + 9
  | .lock _ => words + 8
  | .check => words + 7
  | .scan i => words - i + 6
  | .read _ => 7
  | .clear .. => 6
  | .mark .. | .give _ => 5
  | .take _ | .storeGiven _ => 4
  | .storeTaken _ | .add => 3
  | .unlock _ => 2
  | .drop _ => 1

noncomputable def Pc.rest (counts : List Nat) (words : Nat) : Pc → Nat
  | .reserve _ => counts.length * (words + 12) + (words + 10)
  | .at g stage => (match stage with
    | .get .alloc | .lock .alloc | .check => ahead counts g
    | .unlock .retry | .drop .retry => ahead counts ((1 + g) % counts.length)
    | _ => 0) * (words + 12) + stage.rest words
  | _ => 0

/-- The words that a scan reads at most. -/
def E2Fs.words (s : E2Fs) : Nat := (s.blocksPerGroup + 7) / 8

def E2Fs.counts (s : E2Fs) : List Nat := s.groups.map (·.count)

/-- More than a call has left, whatever the counts are. -/
def E2Fs.most (s : E2Fs) : Nat := (s.groups.length + 1) * (s.words + 12)

noncomputable def work (s : E2Fs) : Nat :=
  sum Pc.pending s * (s.threads.length * s.most + 1) + sum (Pc.rest s.counts s.words) s

theorem Stage.rest_lt (words : Nat) (stage : Stage) : stage.rest words < words + 12 := by
  unfold rest
  split <;> omega

theorem Pc.rest_le (p : Pc) : p.rest s.counts s.words ≤ s.most := by
  have length : s.counts.length = s.groups.length := length_map _
  have expand : s.most = s.groups.length * (s.words + 12) + (s.words + 12) := succ_mul _ _
  cases p with
  | idle | failed => exact zero_le _
  | reserve hint =>
    rw [expand, rest, length]
    omega
  | «at» g stage =>
    have steps := stage.rest_lt s.words
    have walk (n : Nat) le : n * (s.words + 12) ≤ s.groups.length * (s.words + 12) :=
      mul_le_mul_right _ le
    have near (g : Nat) : ahead s.counts g ≤ s.groups.length := length ▸ ahead_le s.counts g
    rw [expand]
    apply Nat.add_le_add _ (Nat.le_of_lt steps)
    apply walk
    split
    · exact near g
    · exact near g
    · exact near g
    · exact near _
    · exact near _
    · exact Nat.zero_le _

theorem sum_le_mul {f : Pc → Nat} {n : Nat} (le : ∀ p, f p ≤ n) :
    sum f s ≤ s.threads.length * n := by
  calc (s.threads.map f).sum ≤ (s.threads.map fun _ => n).sum := List.sum_le_sum fun p _ => le p
    _ = s.threads.length * n := by simp

/-- How a call gets on: it has changed its count, or the counts are the same and it has less to do.
-/
structure Advance (s s' : E2Fs) (t : Nat) (p q : Pc) : Prop where
  here : s.threads[t]? = some p
  threads : s'.threads = s.threads.set t q
  groups : s'.groups.length = s.groups.length
  per : s'.blocksPerGroup = s.blocksPerGroup
  less : q.pending < p.pending ∨
    s'.counts = s.counts ∧ q.pending = p.pending ∧
      q.rest s.counts s.words < p.rest s.counts s.words

theorem Advance.work_lt (a : Advance s s' t p q) : work s' < work s := by
  have length : s'.threads.length = s.threads.length := by rw [a.threads, length_set]
  have words : s'.words = s.words := by rw [E2Fs.words, E2Fs.words, a.per]
  have most : s'.most = s.most := by rw [E2Fs.most, E2Fs.most, words, a.groups]
  have moved (f : Pc → Nat) : sum f s' + f p = sum f s + f q := by
    rw [sum, a.threads]
    exact sum_set f a.here
  have pending := moved pending
  unfold work
  rw [length, most]
  rcases a.less with fewer | ⟨counts, same, less⟩
  · have all : sum (rest s'.counts s'.words) s' ≤ s.threads.length * s.most := by
      rw [← length, ← most]
      exact sum_le_mul rest_le
    have room : (sum Pc.pending s' + 1) * (s.threads.length * s.most + 1) ≤
        sum Pc.pending s * (s.threads.length * s.most + 1) := mul_le_mul_right _ (by omega)
    rw [succ_mul] at room
    omega
  · have rest := moved (rest s.counts s.words)
    have eq : sum Pc.pending s' = sum Pc.pending s := by omega
    rw [counts, words, eq]
    omega

/-! ### A group with a free block -/

theorem sum_weight_le (f : Stage → Nat) (n : Nat) (ts : List Pc) :
    ∑ g ∈ Finset.range n, (ts.map (weight f g)).sum ≤ (ts.map (total f)).sum := by
  induction ts with
  | nil => simp
  | cons p ts ih =>
    simp only [map_cons, sum_cons, Finset.sum_add_distrib]
    have one : ∑ g ∈ Finset.range n, p.weight f g ≤ p.total f := by
      cases p with
      | «at» g' stage =>
        unfold weight total
        rw [Finset.sum_ite_eq]
        split
        · exact le_refl _
        · exact zero_le _
      | _ => simp [weight]
    exact Nat.add_le_add one ih

theorem sum_le_of_each {ns : List Nat} {f : Nat → Nat} (le : ∀ g n, ns[g]? = some n → n ≤ f g) :
    ns.sum ≤ ∑ g ∈ Finset.range ns.length, f g := by
  induction ns generalizing f with
  | nil => exact zero_le _
  | cons n ns ih =>
    have rest := ih fun g m here => le (g + 1) m here
    have first := le 0 n rfl
    rw [sum_cons, length_cons, Finset.sum_range_succ']
    omega

/-- A call that has reserved a block finds a group with one. -/
theorem Inv.exists_count (h : Inv s₀ s) (here : s.threads[t]? = some (.at g stage))
    (reserved : stage.reserved = 1) : ∃ k < s.counts.length, 0 < s.counts.getD k 0 := by
  by_contra none
  have zero {k : Nat} {G : Group} (found : s.groups[k]? = some G) : G.count = 0 := by
    by_contra some
    have k_lt := (List.getElem?_eq_some_iff.mp found).1
    refine none ⟨k, by rwa [E2Fs.counts, length_map], ?_⟩
    rw [getD_eq_getElem?_getD, E2Fs.counts, List.getElem?_map, found]
    exact pos_of_ne_zero some
  -- then the free blocks are all on their way back
  have back : (s.groups.map zeros).sum ≤ sum (Pc.total given) s := by
    refine le_trans (sum_le_of_each ?_) (sum_weight_le given (s.groups.map zeros).length s.threads)
    intro g n there
    rw [List.getElem?_map] at there
    obtain ⟨G, found, rfl⟩ := Option.map_eq_some_iff.mp there
    have count := (h.counts found).count
    rw [zero found] at count
    change zeros G ≤ sum (weight given g) s
    omega
  have given : sum (Pc.total given) s ≤ sum (Pc.total returning) s := by
    apply List.sum_le_sum
    rintro p -
    unfold Pc.total
    split
    · rename_i g stage
      cases stage <;> simp [given, returning]
    · exact le_refl _
  have one : stage.reserved ≤ sum (Pc.total Stage.reserved) s :=
    le_sum (Pc.total Stage.reserved) here
  have := h.total
  omega

/-! ### Steps -/

/-- A call gets on in its group, and the counts stay as they are. -/
theorem Advance.of_count (here : s.threads[t]? = some (.at g stage)) (found : s.groups[g]? = some G)
    (threads : s'.threads = s.threads.set t q) (groups : s'.groups = s.groups.set g G')
    (per : s'.blocksPerGroup = s.blocksPerGroup) (count : G'.count = G.count)
    (pending : q.pending = (Pc.at g stage).pending)
    (rest : q.rest s.counts s.words < (Pc.at g stage).rest s.counts s.words) :
    Advance s s' t (.at g stage) q where
  here := here
  threads := threads
  groups := by rw [groups, length_set]
  per := per
  less := by
    right
    refine ⟨?_, pending, rest⟩
    rw [E2Fs.counts, groups]
    exact map_set_same _ found count

theorem Advance.of_goto (here : s.threads[t]? = some (.at g stage))
    (pending : q.pending = (Pc.at g stage).pending)
    (rest : q.rest s.counts s.words < (Pc.at g stage).rest s.counts s.words) :
    Advance s (s.goto t q) t (.at g stage) q :=
  ⟨here, rfl, rfl, rfl, .inr ⟨rfl, pending, rest⟩⟩

theorem InGroup.check_advance (h : InGroup s₀ s t g .check G) :
    Advance s (s.goto t (.at g (if 0 < G.count then .scan 0 else .unlock .retry))) t (.at g .check)
      (.at g (if 0 < G.count then .scan 0 else .unlock .retry)) := by
  by_cases some : 0 < G.count
  · rw [if_pos some]
    refine Advance.of_goto h.here rfl ?_
    change 0 * (s.words + 12) + (s.words - 0 + 6) < _ * (s.words + 12) + (s.words + 7)
    omega
  · rw [if_neg some]
    refine Advance.of_goto h.here rfl ?_
    obtain ⟨k, k_lt, positive⟩ := h.exists_count h.here rfl
    have length : s.counts.length = s.groups.length := length_map _
    have g_lt := length ▸ (List.getElem?_eq_some_iff.mp h.found).1
    have full : s.counts[g]? = Option.some 0 := by
      rw [E2Fs.counts, List.getElem?_map, h.found, Option.map_some, Nat.eq_zero_of_not_pos some]
    have near := mul_le_mul_right (s.words + 12) (ahead_next g_lt full k_lt positive)
    rw [succ_mul] at near
    change ahead s.counts ((1 + g) % s.counts.length) * (s.words + 12) + (s.words + 11) <
      ahead s.counts g * (s.words + 12) + (s.words + 7)
    omega

theorem InGroup.scan_advance (h : InGroup s₀ s t g (.scan i) G)
    (run : s.runAt t g G (.scan i) = some s') : ∃ q, Advance s s' t (.at g (.scan i)) q := by
  obtain ⟨bound, word, at_i⟩ := h.scan_word
  rw [E2Fs.runAt, if_pos bound, at_i] at run
  cases run
  refine ⟨_, Advance.of_goto h.here ?_ ?_⟩
  · dsimp only
    split <;> rfl
  · change i < s.words at bound
    dsimp only
    split
    · change 0 * (s.words + 12) + 5 < 0 * (s.words + 12) + (s.words - i + 6)
      omega
    · change 0 * (s.words + 12) + (s.words - (i + 1) + 6) < 0 * (s.words + 12) + (s.words - i + 6)
      omega

/-- A step of a call in a group. -/
theorem InGroup.runAt_advance (consistent : Consistent s₀) (h : InGroup s₀ s t g stage G)
    (run : s.runAt t g G stage = some s') :
    ∃ q, Advance s s' t (.at g stage) q := by
  have step {n m k : Nat} (less : m < k) : n * (s.words + 12) + m < n * (s.words + 12) + k := by
    omega
  cases stage with
  | get op =>
    cases run
    refine ⟨_, .of_count h.here h.found rfl rfl rfl G.acquire_spec.1.count rfl ?_⟩
    cases op with
    | alloc | free k => exact step (lt_succ_self (s.words + 8))
  | lock op =>
    simp only [E2Fs.runAt] at run
    split at run
    · cases run
    · cases run
      obtain ⟨d, desc, -⟩ := h.desc rfl
      refine ⟨_, .of_count h.here h.found rfl rfl rfl
        (Group.setLocked_spec desc true).2.2.1 ?_ ?_⟩
      · cases op <;> rfl
      · cases op with
        | alloc => exact step (lt_succ_self (s.words + 7))
        | free k => exact step (show 7 < s.words + 8 by omega)
  | check =>
    cases run
    exact ⟨_, h.check_advance⟩
  | scan i => exact h.scan_advance run
  | mark i word | clear k word =>
    cases run
    exact ⟨_, .of_count h.here h.found rfl rfl rfl rfl rfl (step (lt_succ_self _))⟩
  | take k =>
    cases run
    refine ⟨_, h.here, rfl, length_set, rfl, .inl ?_⟩
    exact zero_lt_one
  | storeTaken k =>
    obtain ⟨block, -⟩ := h.storeTaken consistent
    rw [E2Fs.runAt, if_neg block] at run
    cases run
    obtain ⟨d, desc, -⟩ := h.desc rfl
    refine ⟨_, .of_count h.here h.found rfl rfl rfl ?_ rfl (step (lt_succ_self _))⟩
    rw [Group.count, Group.count, desc]
  | read k =>
    obtain ⟨-, word, at_k, set⟩ := h.read_word
    rw [E2Fs.runAt, at_k] at run
    dsimp only at run
    rw [if_pos set] at run
    cases run
    exact ⟨_, .of_goto h.here rfl (step (lt_succ_self _))⟩
  | give k =>
    obtain ⟨fits, -⟩ := h.give consistent
    rw [E2Fs.runAt, if_pos fits] at run
    cases run
    refine ⟨_, h.here, rfl, length_set, rfl, .inl ?_⟩
    exact zero_lt_one
  | storeGiven k =>
    cases run
    obtain ⟨d, desc, -⟩ := h.desc rfl
    refine ⟨_, .of_count h.here h.found rfl rfl rfl ?_ rfl (step (lt_succ_self _))⟩
    rw [Group.count, Group.count, desc]
  | add =>
    cases run
    exact ⟨_, h.here, rfl, rfl, rfl, .inr ⟨rfl, rfl, step (lt_succ_self _)⟩⟩
  | unlock next =>
    cases run
    obtain ⟨d, desc, -⟩ := h.desc rfl
    refine ⟨_, .of_count h.here h.found rfl rfl rfl
      (Group.setLocked_spec desc false).2.2.1 ?_ ?_⟩
    · cases next <;> rfl
    · cases next with
      | retry => exact step (lt_succ_self (s.words + 10))
      | allocated block | freed => exact step (lt_succ_self _)
  | drop next =>
    have count := h.release_spec.1.count
    cases next with
    | retry =>
      cases run
      refine ⟨_, .of_count h.here h.found rfl rfl rfl count rfl ?_⟩
      rw [← length_map]
      exact step (lt_succ_self (s.words + 9))
    | allocated block | freed =>
      cases run
      exact ⟨_, .of_count h.here h.found rfl rfl rfl count rfl (succ_pos _)⟩

theorem Inv.run_lt (consistent : Consistent s₀) (h : Inv s₀ s) (run : s.run t = some s') :
    work s' < work s := by
  unfold E2Fs.run at run
  split at run
  · rename_i hint here
    split at run
    · cases run
      exact Advance.work_lt ⟨here, rfl, rfl, rfl, .inl zero_lt_one⟩
    · cases run
      refine Advance.work_lt ⟨here, rfl, rfl, rfl, .inr ⟨rfl, rfl, ?_⟩⟩
      have near := mul_le_mul_right (s.words + 12) (ahead_le s.counts hint)
      change ahead s.counts hint * (s.words + 12) + (s.words + 9) <
        s.counts.length * (s.words + 12) + (s.words + 10)
      omega
  · rename_i g stage here
    obtain ⟨G, found, run⟩ := Option.bind_eq_some_iff.mp run
    obtain ⟨q, advance⟩ := InGroup.runAt_advance consistent ⟨h, here, found⟩ run
    exact advance.work_lt
  · cases run

/-- The calls that have started take so many steps at most. -/
theorem length_le_work (consistent : Consistent s₀) {ts : List Nat} (h : Inv s₀ s)
    (runs : run step (fun _ _ => True) (ts.map .run) s = some s') : ts.length ≤ work s := by
  induction ts generalizing s with
  | nil => exact zero_le _
  | cons t ts ih =>
    obtain ⟨s₁, first, runs⟩ := Option.bind_eq_some_iff.mp runs
    have less := h.run_lt consistent first
    have rest := ih (h.run consistent first) runs
    rw [length_cons]
    omega

theorem exists_runAt (free : G.locked = false ∨ stage.holds = 1) : ∃ s',
    s.runAt t g G stage = some s' := by
  cases stage with
  | lock op =>
    rcases free with free | holds
    · simp only [E2Fs.runAt, free]
      exact ⟨_, rfl⟩
    · cases holds
  | read k | give k =>
    rw [E2Fs.runAt]
    split <;> exact ⟨_, rfl⟩
  | drop next => cases next <;> exact ⟨_, rfl⟩
  | _ => exact ⟨_, rfl⟩

/-- A call that waits for a lock waits for one that can go on. -/
theorem Inv.exists_run (h : Inv s₀ s) (mem : p ∈ s.threads) (busy : p ≠ .idle) : ∃ t s',
    s.run t = some s' := by
  obtain ⟨t, here⟩ := List.mem_iff_getElem?.mp mem
  have at_group {t g : Nat} {G : Group} {stage : Stage} (here : s.threads[t]? = some (.at g stage))
      (found : s.groups[g]? = some G) (free : G.locked = false ∨ stage.holds = 1) : ∃ t s',
          s.run t = some s' := by
    obtain ⟨s', run⟩ := exists_runAt free
    refine ⟨t, s', ?_⟩
    unfold E2Fs.run
    rw [here]
    dsimp only
    rw [found]
    exact run
  cases p with
  | idle => contradiction
  | failed => exact absurd (h.pcs mem) id
  | reserve hint =>
    refine ⟨t, ?_⟩
    unfold E2Fs.run
    rw [here]
    dsimp only
    split <;> exact ⟨_, rfl⟩
  | «at» g stage =>
    obtain ⟨G, found, -⟩ := h.pcs mem
    cases locked : G.locked with
    | false => exact at_group here found (.inl locked)
    | true =>
      have locks := (h.counts found).locks
      rw [locked] at locks
      obtain ⟨t', holder, there, holds⟩ := exists_of_sum_pos (weight holds g) (by
        change 0 < sum (weight holds g) s
        rw [locks]
        decide)
      cases holder with
      | «at» g' stage' =>
        change 0 < if g' = g then stage'.holds else 0 at holds
        split at holds
        · rename_i same
          subst same
          refine at_group there found (.inr ?_)
          revert holds
          cases stage' <;> simp [holds]
        · cases holds
      | _ => cases holds

/-! ### Allocations -/

/-- An allocation that has its reservation. -/
def Pc.allocating : Pc → Bool
  | .at _ stage => match stage with
    | .get .alloc | .lock .alloc | .check | .scan _ | .mark .. | .take _ | .storeTaken _
    | .unlock .retry | .unlock (.allocated _) | .drop .retry | .drop (.allocated _) => true
    | _ => false
  | _ => false

/-- What a step does to an allocation. -/
inductive Goes (s₀ s s' : E2Fs) (p q : Pc) : Prop where
  | on (allocating : q.allocating = true) (same : q.block s₀ = p.block s₀)
  | claims {b : Nat} (allocating : q.allocating = true) (none : p.block s₀ = none)
    (some : q.block s₀ = some b)
      (clear : isFree s b = true) (set : isFree s' b = false)
  | returns {b : Nat} (idle : q = .idle) (some : p.block s₀ = some b)
    (owned : s'.owned = b :: s.owned)

theorem InGroup.runAt_goes (consistent : Consistent s₀) (h : InGroup s₀ s t g stage G)
    (allocating : (Pc.at g stage).allocating = true) (run : s.runAt t g G stage = some s') :
    ∃ q, s'.threads[t]? = some q ∧ Goes s₀ s s' (.at g stage) q := by
  have after := h.runAt consistent run
  have t_lt := (List.getElem?_eq_some_iff.mp h.here).1
  have new {q : Pc} : (s.threads.set t q)[t]? = some q := List.getElem?_set_self t_lt
  cases stage with
  | get op =>
    cases op with
    | alloc =>
      cases run
      exact ⟨_, new, .on rfl rfl⟩
    | free k => cases allocating
  | lock op =>
    cases op with
    | alloc =>
      simp only [E2Fs.runAt] at run
      split at run
      · cases run
      · cases run
        exact ⟨_, new, .on rfl rfl⟩
    | free k => cases allocating
  | check =>
    cases run
    refine ⟨_, new, .on ?_ ?_⟩
    · split <;> rfl
    · split <;> rfl
  | scan i =>
    obtain ⟨bound, word, at_i⟩ := h.scan_word
    rw [E2Fs.runAt, if_pos bound, at_i] at run
    cases run
    refine ⟨_, new, .on ?_ ?_⟩
    all_goals
      dsimp only
      split <;> rfl
  | mark i word =>
    cases run
    obtain ⟨-, k_lt, clear⟩ := h.mark_clear
    refine ⟨_, new, .claims rfl rfl rfl ?_ (after.has_block new rfl).2⟩
    rw [h.block_eq, isFree_block h.found (h.shape h.found) k_lt, clear]
    rfl
  | take k =>
    cases run
    exact ⟨_, new, .on rfl rfl⟩
  | storeTaken k =>
    obtain ⟨block, -⟩ := h.storeTaken consistent
    rw [E2Fs.runAt, if_neg block] at run
    cases run
    exact ⟨_, new, .on rfl (congrArg some h.block_eq.symm)⟩
  | unlock next =>
    cases next with
    | retry | allocated block =>
      cases run
      exact ⟨_, new, .on rfl rfl⟩
    | freed => cases allocating
  | drop next =>
    cases next with
    | retry =>
      cases run
      exact ⟨_, new, .on rfl rfl⟩
    | allocated block =>
      cases run
      exact ⟨_, new, .returns rfl rfl rfl⟩
    | freed => cases allocating
  | _ => cases allocating

/-- Another call does not touch an allocation. -/
theorem step_goes {event : Event} (consistent : Consistent s₀) (h : Inv s₀ s)
    (here : s.threads[t]? = some p)
    (allocating : p.allocating = true) (taken : step event s = some s') :
    ∃ q, s'.threads[t]? = some q ∧ Goes s₀ s s' p q := by
  have other {t' : Nat} {q : Pc} (threads : s'.threads = s.threads.set t' q) ne :
      ∃ q, s'.threads[t]? = some q ∧ Goes s₀ s s' p q :=
    ⟨p, by rw [threads, List.getElem?_set_ne ne, here], .on allocating rfl⟩
  have busy {t' : Nat} (idle : s.threads[t']? = some .idle) : t' ≠ t := by
    rintro rfl
    cases here.symm.trans idle
    cases allocating
  unfold step at taken
  cases event with
  | allocBlock t' hint | freeBlock t' block =>
    dsimp only at taken
    split at taken
    · rename_i guard
      cases taken
      exact other rfl (busy guard.1)
    · cases taken
  | run t' =>
    dsimp only at taken
    unfold E2Fs.run at taken
    split at taken
    · rename_i hint there
      have ne : t' ≠ t := by
        rintro rfl
        cases here.symm.trans there
        cases allocating
      split at taken
      all_goals
        cases taken
        exact other rfl ne
    · rename_i g stage there
      obtain ⟨G, found, taken⟩ := Option.bind_eq_some_iff.mp taken
      by_cases same : t' = t
      · subst same
        cases here.symm.trans there
        exact InGroup.runAt_goes consistent ⟨h, there, found⟩ allocating taken
      · obtain ⟨q, advance⟩ := InGroup.runAt_advance consistent ⟨h, there, found⟩ taken
        exact other advance.threads same
    · cases taken

/-! ### Any interleaving -/

/-- The blocks that calls have and have returned, and what is left when no call runs. -/
structure Sound (s₀ s : E2Fs) : Prop where
  succeeds (failure : Failure) : .failed failure ∉ s.threads
  nodup : s.owned.Nodup
  used : ∀ b ∈ s.owned, isFree s b = false
  exclusive {t b : Nat} {p : Pc} : s.threads[t]? = some p → p.block s₀ = some b →
    b ∉ s.owned ∧ isFree s b = false ∧ ∀ t' p', s.threads[t']? = some p' →
      p'.block s₀ = some b → t' = t
  quiet : (∀ p ∈ s.threads, p = .idle) →
    (∀ G ∈ s.groups, G.desc = none ∧ G.freeBlockCount = zeros G) ∧
      s.freeBlocks = (s.groups.map (·.freeBlockCount)).sum

theorem Inv.sound (h : Inv s₀ s) : Sound s₀ s where
  succeeds failure mem := h.pcs mem
  nodup := by
    rw [nodup_iff_count_le_one]
    intro b
    have one := h.one b
    have := Bool.toNat_le (isFree s₀ b)
    omega
  used b mem := by
    have one := h.one b
    have start := Bool.toNat_le (isFree s₀ b)
    have positive := List.count_pos_iff.mpr mem
    cases free : isFree s b with
    | false => rfl
    | true =>
      rw [free, Bool.toNat_true] at one
      omega
  exclusive {t b p} here block := by
    have one := h.one b
    have start := Bool.toNat_le (isFree s₀ b)
    have has {p : Pc} (block : p.block s₀ = some b) : p.has s₀ b = 1 := if_pos block
    have mine : p.has s₀ b ≤ sum (Pc.has s₀ b) s := le_sum (Pc.has s₀ b) here
    rw [has block] at mine
    refine ⟨?_, (h.has_block here block).2, fun t' p' there block' => ?_⟩
    · intro mem
      have positive := List.count_pos_iff.mpr mem
      omega
    · by_contra ne
      have both : p.has s₀ b + p'.has s₀ b ≤ sum (Pc.has s₀ b) s :=
        add_le_sum (Pc.has s₀ b) here there ne
      rw [has block, has block'] at both
      omega
  quiet idle := by
    have zero (f : Pc → Nat) (none : f .idle = 0) : sum f s = 0 := by
      apply sum_eq_zero f
      intro p mem
      rw [idle p mem, none]
    have disk (G : Group) (mem : G ∈ s.groups) : G.freeBlockCount = zeros G := by
      obtain ⟨g, found⟩ := List.mem_iff_getElem?.mp mem
      have disk := (h.counts found).disk
      rw [zero _ rfl, zero _ rfl] at disk
      exact disk
    refine ⟨fun G mem => ⟨?_, disk G mem⟩, ?_⟩
    · obtain ⟨g, found⟩ := List.mem_iff_getElem?.mp mem
      have users := (h.counts found).users
      rw [zero _ rfl, Group.users] at users
      cases some : G.desc with
      | none => rfl
      | some d =>
        have live := (h.counts found).live some
        rw [some] at users
        change 0 = d.users at users
        omega
    · have total := h.total
      rw [zero _ rfl, zero _ rfl] at total
      rw [← map_congr_left (fun G mem => (disk G mem).symm)] 
      exact total

theorem reaches_inv (consistent : Consistent s₀) (reach : Reaches step (fun _ _ => True) s₀ s) :
    Inv s₀ s :=
  reach.invariant consistent.inv fun _ h taken => h.step consistent taken

/-- In any interleaving no call fails, and an allocation with a reservation goes on until it
returns a block whose bit it found clear. Calls that have started all return, if they are not
overtaken by new ones for ever. -/
theorem alloc_block_correct (consistent : Consistent s₀)
    (reach : Reaches step (fun _ _ => True) s₀ s) : Sound s₀ s ∧
    (∀ (t : Nat) (p : Pc) (event : Event) (s' : E2Fs), s.threads[t]? = some p →
      p.allocating = true → step event s = some s' → ∃ q, s'.threads[t]? = some q ∧
        Goes s₀ s s' p q) ∧
    (∃ n, ∀ (ts : List Nat) s', run step (fun _ _ => True) (ts.map .run) s = some s' →
    ts.length ≤ n) ∧ ((∀ t, s.run t = none) → ∀ p ∈ s.threads, p = .idle) := by
  have h := reaches_inv consistent reach
  refine ⟨h.sound, ?_, ⟨work s, fun ts s' runs => length_le_work consistent h runs⟩, ?_⟩
  · intro t p event s' here allocating taken
    exact step_goes consistent h here allocating taken
  · intro none p mem
    by_contra busy
    obtain ⟨t, s', some⟩ := h.exists_run mem busy
    cases (none t).symm.trans some

/-! ### Two groups with a block each -/

def twoGroups : E2Fs where
  firstDataBlock := 1
  blocksPerGroup := 1
  freeBlocks := 2
  groups := [⟨1, [0xfffffffffffffffe#64], 1, none⟩, ⟨1, [0xfffffffffffffffe#64], 1, none⟩]
  threads := [.idle, .idle]
  owned := []

theorem twoGroups_consistent : Consistent twoGroups := by
  have each {P : Group → Prop} (one : P ⟨1, [0xfffffffffffffffe#64], 1, none⟩)
    {g : Nat} {G : Group}
      (found : twoGroups.groups[g]? = some G) : P G := by
    have mem := List.mem_of_getElem? found
    simp only [twoGroups, mem_cons, not_mem_nil, or_false, or_self] at mem
    exact mem ▸ one
  constructor
  case idle =>
    intro p mem
    simpa [twoGroups] using mem
  case owned => rfl
  case shape =>
    refine each ⟨by decide, by decide, ?_⟩
    have set : ∀ k < 64, 1 ≤ k → bit [0xfffffffffffffffe#64] k = true := by decide
    exact fun k outside inside => set k inside outside
  case desc => exact each (P := fun G => G.desc = none) rfl
  case count => exact each (P := fun G => G.freeBlockCount = zeros G) (by decide)
  case fits => exact each (P := fun G => G.freeBlockCount < 65536) (by decide)
  case boot => rfl
  case free => rfl

/-- The block of the first group is taken, and another call with a reservation looks for one. -/
def overtaken : E2Fs where
  firstDataBlock := 1
  blocksPerGroup := 1
  freeBlocks := 0
  groups := [⟨1, [BitVec.allOnes 64], 0, none⟩, ⟨1, [0xfffffffffffffffe#64], 1, none⟩]
  threads := [.at 0 (.get .alloc), .idle]
  owned := [1]

theorem overtaken_reached : Reaches step (fun _ _ => True) twoGroups overtaken := by
  have taken : run step (fun _ _ => True)
    ([.allocBlock 0 0, .run 0, .allocBlock 1 0] ++ List.replicate 10 (.run 1))
      twoGroups = some overtaken := by decide +kernel
  exact Reaches.init.of_run taken

theorem alloc_block_correct_overtaken :
    Consistent twoGroups ∧ Reaches step (fun _ _ => True) twoGroups overtaken ∧
      Sound twoGroups overtaken ∧
    ∃ n, ∀ (ts : List Nat) s', run step (fun _ _ => True) (ts.map .run) overtaken = some s' →
      ts.length ≤ n :=
  have ⟨sound, _, returns, _⟩ := alloc_block_correct twoGroups_consistent overtaken_reached
  ⟨twoGroups_consistent, overtaken_reached, sound, returns⟩

/-- The other thread frees its block and takes that of the other group, each time before the
call gets there. -/
def overtaking : List Event :=
  List.replicate 5 (.run 0) ++
  .freeBlock 1 1 :: List.replicate 9 (.run 1) ++
  .allocBlock 1 1 :: List.replicate 10 (.run 1) ++
  List.replicate 5 (.run 0) ++
  .freeBlock 1 2 :: List.replicate 9 (.run 1) ++
  .allocBlock 1 0 :: List.replicate 10 (.run 1)

/-- A call with a reservation may look for a block for ever. -/
theorem not_alloc_block_terminates : ∃ s₀ s : E2Fs, Consistent s₀ ∧
    Reaches step (fun _ _ => True) s₀ s ∧
    ∃ r : Endless step s, (∀ n, (r.state n).threads[0]?.map Pc.allocating = some true) ∧
      ∀ n, ∃ m ≥ n, r.event m = .run 0 := by
  refine ⟨twoGroups, overtaken, twoGroups_consistent, overtaken_reached, ?_⟩
  have back : run step (fun s _ => s.threads[0]?.map allocating = some true) overtaking overtaken =
      some overtaken := by decide +kernel
  exact exists_endless (by decide) back

end BadgerOS.BlockAlloc
