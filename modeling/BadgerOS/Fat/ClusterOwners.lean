import BadgerOS.Fat.Clusters

/-!
# Owners of clusters

A cluster is available, or one file has it. `alloc_chain` puts the complement of the
bit that it takes into the bitmap, so it makes all the other clusters of the word
available; it is right for words of which all clusters are.
-/

namespace BadgerOS.Clusters

open Bitmap Interleaving ClusterAlloc Option List BitVec

variable {s s' : ClusterAlloc} {p q : Pc} {t c i file : Nat} {chain : List Nat}

/-! ### The invariant -/

/-- How many times a thread is going to make a cluster available. -/
def freeing (c : Nat) : Pc → Nat
  | .free cluster rest => (cluster :: rest).count c
  | .add rest => rest.count c
  | _ => 0

/-- The clusters that a thread has reserved and not claimed. -/
def reserved : Pc → Nat
  | .pop _ call _ chain => call.amount - chain.length
  | .claim _ call _ _ chain => call.amount - chain.length
  | .grow _ amount _ chain _ => amount - chain.length - 1
  | _ => 0

/-- A cluster that is in the bitmap again and not in the number. -/
def returning : Pc → Nat
  | .add _ => 1
  | _ => 0

/-- How many files have a cluster. -/
def owners (s : ClusterAlloc) (c : Nat) : Nat := s.owned.countP (·.1 = c)

/-- The clusters whose bits are set. -/
def freeCount (s : ClusterAlloc) : Nat := Nat.count (bit s.bitmap · = true) s.total

def sum (f : Pc → Nat) (s : ClusterAlloc) : Nat := (s.threads.map f).sum

/-- What a thread relies on. -/
def Pc.Ok : Pc → Prop
  | .pop _ call _ chain => chain.length < call.amount
  | .claim _ call _ cur chain => chain.length < call.amount ∧ cur ≠ 0#64
  | .grow _ amount _ chain _ => chain.length < amount
  | .free _ rest => rest = []
  | .add rest => rest = []
  | _ => True

structure Inv (s : ClusterAlloc) : Prop where
  /-- A cluster is available, or one file has it, or one thread frees it. -/
  one (c : Nat) : owners s c + sum (freeing c) s + (bit s.bitmap c).toNat ≤ if c < s.total then 1
    else 0
  count : s.available + sum reserved s + sum returning s = freeCount s
  pcs {p : Pc} : p ∈ s.threads → p.Ok

/-- A volume on which no call is running. -/
structure Mounted (s : ClusterAlloc) : Prop where
  idle {p : Pc} : p ∈ s.threads → p = .idle
  one (c : Nat) : owners s c + (bit s.bitmap c).toNat ≤ if c < s.total then 1 else 0
  count : s.available = freeCount s

theorem Mounted.inv (h : Mounted s) : Inv s := by
  have quiet (f : Pc → Nat) (idle : f .idle = 0) : sum f s = 0 := by
    apply sum_eq_zero f
    intro p mem
    rw [h.idle mem, idle]
  constructor
  case one =>
    intro c
    rw [quiet (freeing c) rfl]
    exact h.one c
  case count =>
    rw [quiet reserved rfl, quiet returning rfl]
    exact h.count
  case pcs =>
    intro p mem
    rw [h.idle mem]
    trivial

section

variable (h : Inv s) (here : s.threads[t]? = some p)
include h here

/-- A thread goes on, and what it holds is accounted for. -/
theorem Inv.moves (threads : s'.threads = s.threads.set t q)
    (total : s'.total = s.total) (ok : q.Ok)
    (one : ∀ c, owners s' c + freeing c q + (bit s'.bitmap c).toNat ≤ owners s c + freeing c
    p + (bit s.bitmap c).toNat)
    (count : s'.available + reserved q + returning q + freeCount s = s.available + reserved
    p + returning p + freeCount s') : Inv s' := by
  have moved (f : Pc → Nat) : sum f s' + f p = sum f s + f q := by
    rw [sum, threads]
    exact sum_set f here
  constructor
  case one =>
    intro c
    have before := h.one c
    have now := one c
    have threads := moved (freeing c)
    rw [total]
    omega
  case count =>
    have before := h.count
    have first := moved reserved
    have second := moved returning
    omega
  case pcs =>
    intro r mem
    rw [threads] at mem
    rcases mem_set mem with rfl | old
    · exact ok
    · exact h.pcs old

/-- A thread goes on and changes nothing. -/
theorem Inv.goto (ok : q.Ok) (same : ∀ c, freeing c q = freeing c p)
    (same_reserved : reserved q = reserved p) (same_returning : returning q = returning p) :
    Inv (s.goto t q) := by
  refine h.moves here rfl rfl ok (fun c => ?_) ?_
  · rw [same]
    exact le_rfl
  · rw [same_reserved, same_returning]
    rfl

theorem pc_ok : p.Ok := h.pcs (mem_of_getElem? here)

end

/-! ### Steps -/

variable {cur : BitVec 64}

theorem mask_zero : mask cur = 0 ↔ cur = 0#64 := by
  constructor
  · intro zero
    by_contra some
    unfold mask at zero
    rw [lowest_eq_mask some] at zero
    obtain ⟨inside, -, -⟩ := trailingZeros_spec some
    have set := getLsbD_mask (i := trailingZeros cur) inside
    rw [zero] at set
    simp at set
  · rintro rfl
    exact lowest_zero

variable {call : Call}

/-- The cluster of the lowest bit, and the word without it. -/
theorem claimed_spec (some : cur ≠ 0#64) (full : call ≠ .alloc → cur = allOnes 64) :
    trailingZeros (mask cur) = trailingZeros cur ∧
      claimed call cur = cur &&& ~~~(1#64 <<< trailingZeros cur) := by
  obtain ⟨inside, -, -⟩ := trailingZeros_spec some
  have eq : mask cur = 1#64 <<< trailingZeros cur := lowest_eq_mask some
  refine ⟨by rw [eq, trailingZeros_mask inside], ?_⟩
  cases call with
  | alloc => rw [claimed, eq]
  | allocChain =>
    have full := full nofun
    rw [claimed, eq]
    conv_rhs => rw [full]
    rw [allOnes_and, ← full]

variable {word : BitVec 64}

theorem next_ok (less : call = .alloc → chain = []) : (next file call i chain).Ok := by
  unfold ClusterAlloc.next
  split
  · rw [less rfl]
    exact Nat.zero_lt_one
  · split
    · trivial
    · exact Nat.lt_of_not_le ‹_›

theorem reserved_next : reserved (next file call i chain) = call.amount - chain.length := by
  unfold ClusterAlloc.next
  split
  · rfl
  · split
    · exact (Nat.sub_eq_zero_of_le ‹_›).symm
    · rfl

theorem next_quiet (c : Nat) : freeing c (next file call i chain) = 0 ∧
    returning (next file call i chain) = 0 := by
  unfold ClusterAlloc.next
  split
  · exact ⟨rfl, rfl⟩
  · split <;> exact ⟨rfl, rfl⟩

/-- A thread with a word goes on as with its reservation. -/
theorem Inv.look (h : Inv s) (here : s.threads[t]? = some p) (less : chain.length < call.amount)
    (quiet : ∀ c, freeing c p = 0) (same : reserved p = call.amount - chain.length)
    (none : returning p = 0) : Inv (s.goto t (s.look file call i cur chain)) := by
  unfold ClusterAlloc.look
  split
  · have alloc : call = .alloc → chain = [] := by
      rintro rfl
      exact length_eq_zero_iff.mp (Nat.lt_one_iff.mp less)
    refine h.goto here (next_ok alloc) (fun c => ?_) ?_ ?_
    · rw [(next_quiet c).1, quiet c]
    · rw [reserved_next, same]
    · rw [(next_quiet 0).2, none]
  · rename_i some
    refine h.goto here ⟨less, fun zero => some (mask_zero.mpr zero)⟩ (fun c => ?_) ?_ ?_
    · rw [quiet c]
      rfl
    · rw [same]
      rfl
    · rw [none]
      rfl

/-- What the bitmap has after the claim of a cluster. -/
theorem claim_bitmap (here : s.bitmap[i]? = some cur) (some : cur ≠ 0#64)
    (full : call ≠ .alloc → cur = allOnes 64) :
    bit s.bitmap (trailingZeros (mask cur) + i * 64) = true ∧
      ∀ b, bit (s.bitmap.set i (claimed call cur)) b =
        (bit s.bitmap b && !decide (b = trailingZeros (mask cur) + i * 64)) := by
  obtain ⟨inside, set, -⟩ := trailingZeros_spec some
  obtain ⟨place, word⟩ := claimed_spec some full
  rw [place, word]
  refine ⟨?_, fun b => bit_set_and_not here inside⟩
  rw [bit_eq here inside]
  exact set

/-- A cluster whose bit is set is below the total, and nothing has it. -/
theorem Inv.free_cluster (h : Inv s) (set : bit s.bitmap c = true) :
    c < s.total ∧ owners s c = 0 ∧ sum (freeing c) s = 0 := by
  have one := h.one c
  rw [set] at one
  simp only [Bool.toNat_true] at one
  split at one
  · exact ⟨‹_›, by omega, by omega⟩
  · omega

theorem owners_cons (eq : s'.owned = (i, file) :: s.owned) :
    owners s' c = owners s c + if c = i then 1 else 0 := by
  rw [owners, eq, countP_cons]
  simp [owners, eq_comm]

theorem Inv.claim (h : Inv s) (here : s.threads[t]? = some (.claim file call i cur chain))
    (word : s.bitmap[i]? = some cur) (full : call ≠ .alloc → cur = allOnes 64)
    (q : Pc) (ok : q.Ok)
    (quiet : ∀ c, freeing c q = 0) (less : reserved q + 1 = call.amount - chain.length)
    (none : returning q = 0) : Inv { s.goto t q with
      bitmap := s.bitmap.set i (claimed call cur)
      owned := (trailingZeros (mask cur) + i * 64, file) :: s.owned } := by
  obtain ⟨-, some⟩ := pc_ok h here
  obtain ⟨set, bits⟩ := claim_bitmap word some full
  obtain ⟨inside, -, -⟩ := h.free_cluster set
  refine h.moves here rfl rfl ok (fun c => ?_) ?_
  · rw [owners_cons rfl, quiet c]
    rw [bits c]
    by_cases this : c = trailingZeros (mask cur) + i * 64
    · rw [if_pos this, this, set]
      simp
    · simp [this]
  · have counted : freeCount s = freeCount { s.goto t q with
        bitmap := s.bitmap.set i (claimed call cur)
        owned := (trailingZeros (mask cur) + i * 64, file) :: s.owned } + 1 := by
      apply count_succ_of_flip inside
      · rw [bits]
        simp
      · exact set
      · intro b other
        rw [bits]
        simp [other]
    rw [counted, none]
    change s.available + _ + 0 + _ = s.available + (call.amount - chain.length) + 0 + _
    omega

/-- `fetch_or` of a cluster that a thread frees. -/
theorem Inv.give {cluster : Nat} (h : Inv s)
    (here : s.threads[t]? = some (.free cluster [])) (found : s.bitmap[cluster / 64]? = some word) :
    word.getLsbD (cluster % 64) = false ∧
      Inv { s.goto t (.add []) with
        bitmap := s.bitmap.set (cluster / 64) (word ||| 1#64 <<< (cluster % 64)) } := by
  have place : cluster % 64 + cluster / 64 * 64 = cluster := by omega
  have less : cluster % 64 < 64 := Nat.mod_lt _ (by decide)
  have bits (b : Nat) := bit_set_or (b := b) found less
  rw [place] at bits
  -- the thread is accounted for, so the bit is clear
  have freed : 1 ≤ sum (freeing cluster) s := by
    have moved := sum_set (y := Pc.idle) (freeing cluster) here
    have one : freeing cluster (.free cluster []) = 1 := by simp [freeing]
    change _ = sum (freeing cluster) s + 0 at moved
    omega
  have one := h.one cluster
  have inside : cluster < s.total := by
    by_contra outside
    rw [if_neg outside] at one
    omega
  rw [if_pos inside] at one
  have clear : bit s.bitmap cluster = false := by
    cases set : bit s.bitmap cluster with
    | false => rfl
    | true =>
      rw [set, Bool.toNat_true] at one
      omega
  constructor
  · have eq := bit_eq found less
    rw [place, clear] at eq
    exact eq.symm
  · refine h.moves here rfl rfl rfl (fun c => ?_) ?_
    · rw [bits c]
      change owners s c + 0 + _ ≤ owners s c + List.count c [cluster] + _
      by_cases this : c = cluster
      · rw [this, clear]
        simp
      · simp [this]
    · have counted : freeCount { s.goto t (.add []) with
          bitmap := s.bitmap.set (cluster / 64) (word ||| 1#64 <<< (cluster % 64)) } =
            freeCount s + 1 := by
        apply count_succ_of_flip inside clear
        · rw [bits]
          simp
        · intro b other
          rw [bits]
          simp [other]
      change s.available + 0 + 1 + _ = s.available + 0 + 0 + _
      omega

/-- The allocator is right while `alloc_chain` takes clusters only from words that are full, and
there is memory
for the chains. -/
def Calm (s : ClusterAlloc) : Event → Prop
  | .run t => match s.threads[t]? with
    | some (.claim _ (.allocChain _) i cur _) => s.bitmap[i]? = some cur → cur = allOnes 64
    | _ => True
  | .noMemory _ => False
  | _ => True

theorem run_inv (calm : Calm s (.run t)) (h : Inv s) (run : s.run t = some s') : Inv s' := by
  unfold ClusterAlloc.run at run
  split at run
  case h_1 file call here =>
    cases run
    exact h.goto here trivial (fun _ => rfl) rfl rfl
  case h_2 file call available here =>
    split at run
    · cases run
      exact h.goto here trivial (fun _ => rfl) rfl rfl
    split at run
    · cases run
      refine h.moves here rfl rfl (next_ok fun _ => rfl) (fun c => ?_) ?_
      · rw [(next_quiet c).1]
        exact le_rfl
      · rw [reserved_next, (next_quiet 0).2]
        change available - call.amount + (call.amount - 0) + 0 + freeCount s =
          s.available + 0 + 0 + freeCount s
        omega
    · cases run
      exact h.goto here trivial (fun _ => rfl) rfl rfl
  case h_3 file call i chain here =>
    obtain ⟨cur, -, rfl⟩ := map_eq_some_iff.mp run
    have less := pc_ok h here
    exact h.look here less (fun _ => rfl) rfl rfl
  case h_4 file call i cur chain here =>
    obtain ⟨word, found, rfl⟩ := map_eq_some_iff.mp run
    obtain ⟨less, -⟩ := pc_ok h here
    split
    · rename_i same
      subst same
      cases call with
      | alloc =>
        apply h.claim here found nofun .idle trivial (fun _ => rfl) _ rfl
        obtain rfl : chain = [] := length_eq_zero_iff.mp (Nat.lt_one_iff.mp less)
        rfl
      | allocChain amount =>
        simp only [Calm, here] at calm
        change chain.length < amount at less
        refine h.claim here found (fun _ => calm found) (.grow file amount i chain _) less
          (fun _ => rfl) ?_ rfl
        change amount - chain.length - 1 + 1 = amount - chain.length
        omega
    · exact h.look here less (fun _ => rfl) rfl rfl
  case h_5 file amount i chain cluster here =>
    cases run
    refine h.goto here (next_ok nofun) (fun c => ?_) ?_ ?_
    · rw [(next_quiet c).1]
      rfl
    · rw [reserved_next, length_append]
      exact Nat.sub_add_eq ..
    · rw [(next_quiet 0).2]
      rfl
  case h_6 cluster rest here =>
    obtain rfl : rest = [] := pc_ok h here
    obtain ⟨word, found, rfl⟩ := map_eq_some_iff.mp run
    obtain ⟨clear, inv⟩ := h.give here found
    rw [clear]
    exact inv
  case h_7 rest here =>
    obtain rfl : rest = [] := pc_ok h here
    cases run
    refine h.moves here rfl rfl trivial (fun _ => le_rfl) ?_
    change s.available + 1 + 0 + 0 + freeCount s = s.available + 0 + 1 + freeCount s
    omega
  case h_8 => cases run

variable {event : Event}

theorem step_inv (calm : Calm s event) (h : Inv s) (run : step event s = some s') : Inv s' := by
  cases event with
  | alloc t file | allocChain t file amount =>
    unfold step at run
    dsimp only at run
    split at run
    · rename_i here
      cases run
      exact h.goto here trivial (fun _ => rfl) rfl rfl
    · cases run
  | free t file cluster =>
    unfold step at run
    dsimp only at run
    split at run
    · rename_i legal
      cases run
      refine h.moves legal.1 rfl rfl rfl (fun c => ?_) rfl
      have gone : owners s c = owners { s with owned := s.owned.erase (cluster, file) } c +
          if c = cluster then 1 else 0 := by
        have perm := (perm_cons_erase legal.2).countP_eq (·.1 = c)
        rw [owners, perm, countP_cons]
        simp [owners, eq_comm]
      change owners { s with owned := s.owned.erase (cluster, file) } c + count c [cluster] +
        (bit s.bitmap c).toNat ≤ owners s c + 0 + (bit s.bitmap c).toNat
      rw [gone]
      by_cases this : c = cluster
      · simp [this]
      · simp [Ne.symm this]
    · cases run
  | run t => exact run_inv calm h run
  | spurious t =>
    unfold step at run
    dsimp only at run
    split at run
    · rename_i file call available here
      split at run
      · cases run
      · cases run
        exact h.goto here trivial (fun _ => rfl) rfl rfl
    · cases run
  | noMemory t => exact calm.elim

/-! ### Exclusive clusters -/

/-- Each cluster has one owner, and the number of clusters that are available is right. -/
structure Exclusive (s : ClusterAlloc) : Prop where
  /-- No two files share a cluster. -/
  alone {c f f' : Nat} : (c, f) ∈ s.owned → (c, f') ∈ s.owned → f = f'
  once : (s.owned.map (·.1)).Nodup
  below {c f : Nat} : (c, f) ∈ s.owned → c < s.total ∧ bit s.bitmap c = false
  free_below {c : Nat} : bit s.bitmap c = true → c < s.total
  counted : sum returning s = 0 → s.available + sum reserved s = freeCount s
  quiet : (∀ p ∈ s.threads, p = .idle) → s.available = freeCount s

theorem Inv.exclusive (h : Inv s) : Exclusive s := by
  have at_most (c : Nat) : (s.owned.map (·.1)).count c ≤ 1 := by
    have one := h.one c
    have eq : (s.owned.map (·.1)).count c = owners s c := by
      rw [List.count, countP_map]
      rfl
    split at one <;> omega
  have nodup := nodup_iff_count_le_one.mpr at_most
  constructor
  case once => exact nodup
  case alone =>
    intro c f f' first second
    have eq := inj_on_of_nodup_map nodup first second rfl
    exact (Prod.mk.inj eq).2
  case below =>
    intro c f mem
    have owned : 0 < owners s c := countP_pos_iff.mpr ⟨(c, f), mem, decide_eq_true rfl⟩
    have one := h.one c
    split at one
    · refine ⟨‹_›, ?_⟩
      cases set : bit s.bitmap c with
      | false => rfl
      | true =>
        rw [set, Bool.toNat_true] at one
        omega
    · omega
  case free_below => exact fun set => (h.free_cluster set).1
  case counted =>
    have count := h.count
    omega
  case quiet =>
    intro idle
    have none (f : Pc → Nat) (zero : f .idle = 0) : sum f s = 0 := by
      apply sum_eq_zero f
      intro p mem
      rw [idle p mem, zero]
    have count := h.count
    rw [none reserved rfl, none returning rfl] at count
    exact count

/-- What a step hands out. -/
theorem handed_out (calm : Calm s event) (h : Inv s) (run : step event s = some s')
    (out : s'.owned = (c, file) :: s.owned) : bit s.bitmap c = true := by
  have longer {l : List (Nat × Nat)} {x : Nat × Nat} : l ≠ x :: l := by
    intro eq
    have := congrArg length eq
    simp at this
  cases event with
  | alloc | allocChain =>
    unfold step at run
    dsimp only at run
    split at run
    · cases run
      exact absurd out longer
    · cases run
  | free t f cluster =>
    unfold step at run
    dsimp only at run
    split at run
    · cases run
      have shorter := congrArg length out
      have := length_erase_le (l := s.owned) (a := (cluster, f))
      simp at shorter
      omega
    · cases run
  | spurious =>
    unfold step at run
    dsimp only at run
    split at run
    · split at run
      · cases run
      · cases run
        exact absurd out longer
    · cases run
  | noMemory => exact calm.elim
  | run t =>
    change s.run t = some s' at run
    unfold ClusterAlloc.run at run
    split at run
    case h_4 f call i cur chain here =>
      obtain ⟨word, found, rfl⟩ := map_eq_some_iff.mp run
      split at out
      · rename_i same
        subst same
        have full : call ≠ .alloc → word = allOnes 64 := by
          intro other
          cases call with
          | alloc => contradiction
          | allocChain =>
            simp only [Calm, here] at calm
            exact calm found
        obtain ⟨set, -⟩ := claim_bitmap found (pc_ok h here).2 full
        obtain ⟨eq, -⟩ := cons.inj out
        rw [← (Prod.mk.inj eq).1]
        exact set
      · exact absurd out longer
    case h_2 =>
      split at run
      · cases run
        exact absurd out longer
      split at run <;>
      · cases run
        exact absurd out longer
    case h_3 | h_6 =>
      obtain ⟨_, -, rfl⟩ := map_eq_some_iff.mp run
      exact absurd out longer
    case h_8 => cases run
    all_goals
      cases run
      exact absurd out longer

/-- In every interleaving of calm steps each cluster has one owner, and what is handed out was
available and
nobody's. -/
theorem clusters_exclusive {s₀ : ClusterAlloc} (mounted : Mounted s₀)
    (reached : Reaches step Calm s₀ s) :
    Exclusive s ∧ ∀ event s' c file, Calm s event → step event s = some s' →
      s'.owned = (c, file) :: s.owned → bit s.bitmap c = true ∧ owners s c = 0 ∧
        c < s.total := by
  have inv : Inv s := reached.invariant mounted.inv step_inv
  refine ⟨inv.exclusive, fun event s' c file calm run out => ?_⟩
  have set := handed_out calm inv run out
  obtain ⟨below, none, -⟩ := inv.free_cluster set
  exact ⟨set, none, below⟩

instance (event : Event) : Decidable (Calm s event) := by
  unfold Calm
  repeat' split
  all_goals infer_instance

/-- A volume of 64 clusters, with two threads. -/
def volume (word : BitVec 64) (available : Nat) (owned : List (Nat × Nat)) : ClusterAlloc where
  total := 64
  available
  bitmap := [word]
  threads := [.idle, .idle]
  owned

theorem volume_mounted {available : Nat} {owned : List (Nat × Nat)}
    (one : ∀ c < 64, owners (volume word available owned) c + (word.getLsbD c).toNat ≤ 1)
    (below : ∀ x ∈ owned, x.1 < 64) (count : available = freeCount (volume word available owned)) :
    Mounted (volume word available owned) where
  idle mem := by
    change _ ∈ [Pc.idle, .idle] at mem
    simpa using mem
  one c := by
    change owners _ c + (bit [word] c).toNat ≤ if c < 64 then 1 else 0
    by_cases inside : c < 64
    · have eq : bit [word] c = word.getLsbD c := by
        have place : bit [word] (c + 0 * 64) = word.getLsbD c := bit_eq rfl inside
        rwa [Nat.zero_mul, Nat.add_zero] at place
      rw [if_pos inside, eq]
      exact one c inside
    · have clear : bit [word] c = false := by
        have past : ([word])[c / 64]? = none := by
          rw [List.getElem?_eq_none_iff]
          simp only [length_singleton]
          omega
        rw [bit, past]
        simp
      have none : owners (volume word available owned) c = 0 := by
        apply countP_eq_zero.mpr
        intro x mem
        have := below x mem
        simp only [decide_eq_true_eq]
        omega
      rw [clear, none]
      simp
  count := count

/-- Thread 0 takes a chain of one cluster from a full word, and then thread 1 takes a cluster. -/
theorem clusters_exclusive_full : ∃ s, Reaches step Calm (volume (allOnes 64) 64 []) s ∧
    s.owned = [(1, 2), (0, 1)] ∧ s.available = 62 ∧ Exclusive s := by
  have mounted : Mounted (volume (allOnes 64) 64 []) :=
    volume_mounted (by decide +kernel) nofun (by decide +kernel)
  obtain ⟨s, reached, owned, available⟩ : ∃ s,
    Reaches step Calm (volume (allOnes 64) 64 []) s ∧
      s.owned = [(1, 2), (0, 1)] ∧ s.available = 62 :=
    exists_of_run [.allocChain 0 1 1, .run 0, .run 0, .run 0, .run 0, .run 0, .alloc 1 2, .run 1,
      .run 1, .run 1, .run 1] (by decide +kernel)
  exact ⟨s, reached, owned, available, (clusters_exclusive mounted reached).1⟩

/-- File 9 has cluster 0, and clusters 5 and 6 are available. `alloc_chain` takes cluster 5 for file
1, and then
`alloc` takes cluster 0 for file 2. -/
theorem not_clusters_exclusive : Mounted (volume 96#64 2 [(0, 9)]) ∧
    ∃ s, Reaches step (fun _ _ => True) (volume 96#64 2 [(0, 9)]) s ∧
      (0, 9) ∈ s.owned ∧ (0, 2) ∈ s.owned ∧ ¬ Exclusive s := by
  have mounted : Mounted (volume 96#64 2 [(0, 9)]) :=
    volume_mounted (by decide +kernel) (by decide) (by decide +kernel)
  obtain ⟨s, reached, first, second⟩ : ∃ s, Reaches step (fun _ _ => True)
    (volume 96#64 2 [(0, 9)]) s ∧
      (0, 9) ∈ s.owned ∧ (0, 2) ∈ s.owned :=
    exists_of_run [.allocChain 0 1 1, .run 0, .run 0, .run 0, .run 0, .run 0, .alloc 1 2, .run 1,
      .run 1, .run 1, .run 1] (by decide +kernel)
  refine ⟨mounted, s, reached, first, second, fun exclusive => ?_⟩
  have same := exclusive.alone first second
  cases same

end BadgerOS.Clusters
