import BadgerOS.Ext2.BlockAlloc

/-!
# The counts of the block allocator

The counts of each group, its bitmap, its descriptor on the disk and the number of free
blocks agree, up to what the calls in progress still have to do. So a call that has
reserved a block finds one, and a block is never handed out twice.
-/

namespace BadgerOS.BlockAlloc

open Bitmap Interleaving Option List Bool

variable {s₀ s s' : E2Fs} {G G' : Group} {p q : Pc} {stage : Stage} {t g b i k : Nat}

/-! ### What calls in progress have -/

namespace Stage

def holds : Stage → Nat
  | .get _ | .lock _ | .drop _ => 0
  | _ => 1

def uses : Stage → Nat
  | .get _ => 0
  | _ => 1

/-- A block that is marked and not counted yet, in memory and on the disk. -/
def taken : Stage → Nat
  | .take _ => 1
  | _ => 0

def takenDisk : Stage → Nat
  | .take _ | .storeTaken _ => 1
  | _ => 0

/-- A block that is not marked any more and not counted yet, in memory and on the disk. -/
def given : Stage → Nat
  | .give _ => 1
  | _ => 0

def givenDisk : Stage → Nat
  | .give _ | .storeGiven _ => 1
  | _ => 0

/-- The reservation of `alloc_block`. -/
def reserved : Stage → Nat
  | .get .alloc | .lock .alloc | .check | .scan _ | .mark .. | .unlock .retry | .drop .retry => 1
  | _ => 0

/-- What `free_block` has to add. -/
def returning : Stage → Nat
  | .give _ | .storeGiven _ | .add => 1
  | _ => 0

end Stage

open Stage

/-- For the calls in one group. -/
def Pc.weight (f : Stage → Nat) (g : Nat) : Pc → Nat
  | .at g' stage => if g' = g then f stage else 0
  | _ => 0

theorem Pc.weight_at (f : Stage → Nat) (g : Nat) (stage : Stage) :
    (Pc.at g stage).weight f g = f stage := if_pos rfl

/-- For the calls in any group. -/
def Pc.total (f : Stage → Nat) : Pc → Nat
  | .at _ stage => f stage
  | _ => 0

/-- The block that a call has. -/
def Pc.block (s₀ : E2Fs) : Pc → Option Nat
  | .at g stage => match stage with
    | .get (.free index) | .lock (.free index) | .read index | .clear index _ | .take
      index | .storeTaken index =>
      some (s₀.block g index)
    | .unlock (.allocated block) | .drop (.allocated block) => some block
    | _ => none
  | _ => none

def Pc.has (s₀ : E2Fs) (b : Nat) (p : Pc) : Nat := if p.block s₀ = some b then 1 else 0

def sum (f : Pc → Nat) (s : E2Fs) : Nat := (s.threads.map f).sum

/-! ### Counts -/

/-- The blocks of a group that are free. -/
def zeros (G : Group) : Nat := Nat.count (fun k => (!bit G.bitmap k) = true) G.size

/-- Whether a block of some group is free. -/
def isFree (s : E2Fs) (b : Nat) : Bool :=
  s.firstDataBlock ≤ b && match s.groups[(b - s.firstDataBlock) / s.blocksPerGroup]? with
    | some G => (b - s.firstDataBlock) % s.blocksPerGroup < G.size &&
        !bit G.bitmap ((b - s.firstDataBlock) % s.blocksPerGroup)
    | none => false

/-- The layout of a group. -/
structure Shape (s : E2Fs) (G : Group) : Prop where
  size_le : G.size ≤ s.blocksPerGroup
  size_bits : G.size ≤ 64 * G.bitmap.length
  beyond : ∀ k, G.size ≤ k → k < 64 * G.bitmap.length → bit G.bitmap k = true

/-- The counts of a group. -/
structure Counts (s : E2Fs) (g : Nat) (G : Group) : Prop where
  locks : sum (Pc.weight Stage.holds g) s = G.locked.toNat
  users : sum (Pc.weight Stage.uses g) s = G.users
  live {d : Desc} : G.desc = some d → 0 < d.users
  count : G.count + sum (Pc.weight Stage.given g) s = zeros G + sum (Pc.weight Stage.taken g) s
  disk : G.freeBlockCount + sum (Pc.weight Stage.givenDisk g) s = zeros G + sum
    (Pc.weight Stage.takenDisk g) s

/-- What a call relies on in its group. -/
def Stage.Ok (G : Group) : Stage → Prop
  | .get (.free index) | .lock (.free index) | .read index | .take index | .storeTaken index
  | .give index | .storeGiven index => index < G.size
  | .scan i => (∀ j < i, G.bitmap[j]? = some (BitVec.allOnes 64)) ∧ 0 < zeros G
  | .mark i word => G.bitmap[i]? = some word ∧ word ≠ BitVec.allOnes 64
  | .clear index word => index < G.size ∧ G.bitmap[index / 64]? = some word
  | _ => True

def Pc.Ok (s : E2Fs) : Pc → Prop
  | .idle => True
  | .reserve hint => hint < s.groups.length
  | .at g stage => ∃ G, s.groups[g]? = some G ∧ stage.Ok G
  | .failed _ => False

/-- With the image that the run starts from: only what was free then is ever handed out. -/
structure Inv (s₀ s : E2Fs) : Prop where
  first : s.firstDataBlock = s₀.firstDataBlock
  per : s.blocksPerGroup = s₀.blocksPerGroup
  sizes : s.groups.map (·.size) = s₀.groups.map (·.size)
  shape {g : Nat} {G : Group} : s.groups[g]? = some G → Shape s G
  counts {g : Nat} {G : Group} : s.groups[g]? = some G → Counts s g G
  one (b : Nat) : s.owned.count b + sum (Pc.has s₀ b) s + (isFree s b).toNat ≤
    (isFree s₀ b).toNat
  total : s.freeBlocks + sum (Pc.total Stage.reserved) s + sum (Pc.total Stage.returning) s =
    (s.groups.map zeros).sum
  pcs {p : Pc} : p ∈ s.threads → p.Ok s

/-- A volume that is consistent, and no call is running. -/
structure Consistent (s : E2Fs) : Prop where
  idle {p : Pc} : p ∈ s.threads → p = .idle
  owned : s.owned = []
  shape {g : Nat} {G : Group} : s.groups[g]? = some G → Shape s G
  desc {g : Nat} {G : Group} : s.groups[g]? = some G → G.desc = none
  count {g : Nat} {G : Group} : s.groups[g]? = some G → G.freeBlockCount = zeros G
  /-- The count is a `u16`. -/
  fits {g : Nat} {G : Group} : s.groups[g]? = some G → G.freeBlockCount < 65536
  /-- Block 0 is in use. -/
  boot : isFree s 0 = false
  free : s.freeBlocks = (s.groups.map (·.freeBlockCount)).sum

theorem Consistent.inv (h : Consistent s) : Inv s s := by
  have quiet (f : Pc → Nat) (idle : f .idle = 0) : sum f s = 0 := by
    apply sum_eq_zero f
    intro p mem
    rw [h.idle mem, idle]
  constructor
  case first => rfl
  case per => rfl
  case sizes => rfl
  case shape => exact h.shape
  case counts =>
    intro g G here
    constructor
    case locks =>
      rw [quiet _ rfl, Group.locked, h.desc here]
      rfl
    case users =>
      rw [quiet _ rfl, Group.users, h.desc here]
    case live =>
      intro d some
      cases (h.desc here).symm.trans some
    case count =>
      rw [quiet _ rfl, quiet _ rfl, Group.count, h.desc here]
      exact h.count here
    case disk =>
      rw [quiet _ rfl, quiet _ rfl]
      exact h.count here
  case one =>
    intro b
    rw [quiet _ rfl, h.owned]
    simp
  case total =>
    rw [quiet _ rfl, quiet _ rfl, h.free]
    simp only [Nat.add_zero]
    congr 1
    apply map_congr_left
    intro G mem
    obtain ⟨g, here⟩ := mem_iff_getElem?.mp mem
    exact h.count here
  case pcs =>
    intro p mem
    rw [h.idle mem]
    trivial

/-! ### Blocks -/

/-- A block as its group and its index. -/
theorem block_parts (per : k < s.blocksPerGroup) : s.firstDataBlock ≤ s.block g k ∧
    (s.block g k - s.firstDataBlock) / s.blocksPerGroup = g ∧
    (s.block g k - s.firstDataBlock) % s.blocksPerGroup = k := by
  have pos : 0 < s.blocksPerGroup := by omega
  have eq : s.block g k - s.firstDataBlock = k + g * s.blocksPerGroup := by
    unfold E2Fs.block
    omega
  rw [eq, Nat.add_mul_div_right _ _ pos, Nat.div_eq_of_lt per, Nat.add_mul_mod_self_right,
    Nat.mod_eq_of_lt per, Nat.zero_add]
  unfold E2Fs.block
  omega

theorem isFree_block (here : s.groups[g]? = some G) (shape : Shape s G) (less : k < G.size) :
    isFree s (s.block g k) = !bit G.bitmap k := by
  have per := less.trans_le shape.size_le
  obtain ⟨first, div, mod⟩ := block_parts per
  unfold isFree
  rw [div, mod, here]
  simp [first, less]

/-- A free block is one of a group. -/
theorem exists_of_isFree (free : isFree s b = true) : ∃ g G k, s.groups[g]? = some G ∧
    k < G.size ∧ b = s.block g k ∧ bit G.bitmap k = false := by
  unfold isFree at free
  rw [and_eq_true, decide_eq_true_iff] at free
  obtain ⟨first, free⟩ := free
  split at free
  · rename_i G here
    rw [and_eq_true, decide_eq_true_iff, not_eq_true'] at free
    refine ⟨_, G, _, here, free.1, ?_, free.2⟩
    unfold E2Fs.block
    have := Nat.mod_add_div (b - s.firstDataBlock) s.blocksPerGroup
    rw [Nat.mul_comm] at this
    omega
  · cases free

/-! ### Steps -/

theorem Stage.Ok.of_same {stage : Stage} (ok : stage.Ok G) (size : G'.size = G.size)
    (bitmap : G'.bitmap = G.bitmap ∨ stage.holds = 0) : stage.Ok G' := by
  rcases bitmap with bitmap | free
  · have same : zeros G' = zeros G := by rw [zeros, zeros, size, bitmap]
    unfold Ok at ok ⊢
    rw [size, bitmap, same]
    exact ok
  · cases stage with
    | get op | lock op =>
      cases op with
      | alloc => trivial
      | free index =>
        change index < G'.size
        rw [size]
        exact ok
    | drop next => trivial
    | _ => cases free

/-- How the group of a call changes in a step. -/
structure Change (s₀ s s' : E2Fs) (t g : Nat) (stage : Stage) (G G' : Group) (q : Pc) : Prop where
  here : s.threads[t]? = some (.at g stage)
  found : s.groups[g]? = some G
  first : s'.firstDataBlock = s.firstDataBlock
  per : s'.blocksPerGroup = s.blocksPerGroup
  threads : s'.threads = s.threads.set t q
  groups : s'.groups = s.groups.set g G'
  size : G'.size = G.size
  length : G'.bitmap.length = G.bitmap.length
  beyond {k : Nat} : G.size ≤ k → bit G'.bitmap k = bit G.bitmap k
  /-- A call changes the bitmap only with the lock. -/
  quiet : G'.bitmap = G.bitmap ∨ stage.holds = 1
  away {f : Stage → Nat} {g' : Nat} : f (.get .alloc) = 0 → g' ≠ g → q.weight f g' = 0
  locks : q.weight Stage.holds g + G.locked.toNat = stage.holds + G'.locked.toNat
  users : q.weight Stage.uses g + G.users = stage.uses + G'.users
  live {d : Desc} : G'.desc = some d → 0 < d.users
  count : G'.count + q.weight Stage.given g + zeros G + stage.taken =
    G.count + stage.given + zeros G' + q.weight Stage.taken g
  disk : G'.freeBlockCount + q.weight Stage.givenDisk g + zeros G + stage.takenDisk =
    G.freeBlockCount + stage.givenDisk + zeros G' + q.weight Stage.takenDisk g
  one (b : Nat) : s'.owned.count b + q.has s₀ b + (isFree s' b).toNat ≤
    s.owned.count b + (Pc.at g stage).has s₀ b + (isFree s b).toNat
  total : s'.freeBlocks + q.total Stage.reserved + q.total Stage.returning + zeros G =
    s.freeBlocks + stage.reserved + stage.returning + zeros G'
  ok : q.Ok s'

section Changed

variable (c : Change s₀ s s' t g stage G G' q)
include c

theorem Change.moved (f : Pc → Nat) : sum f s' + f (.at g stage) = sum f s + f q := by
  rw [sum, c.threads]
  exact sum_set f c.here

theorem Change.new : s'.groups[g]? = some G' := by
  rw [c.groups, getElem?_set_self (List.getElem?_eq_some_iff.mp c.found).1]

theorem Change.old {g' : Nat} (other : g' ≠ g) : s'.groups[g']? = s.groups[g']? := by
  rw [c.groups, getElem?_set_ne (Ne.symm other)]

theorem Change.shape (shape : Shape s G) : Shape s' G' := by
  obtain ⟨size_le, size_bits, beyond⟩ := shape
  constructor
  · rw [c.size, c.per]
    exact size_le
  · rw [c.size, c.length]
    exact size_bits
  · intro k outside inside
    rw [c.size] at outside
    rw [c.length] at inside
    rw [c.beyond outside]
    exact beyond k outside inside

theorem Change.counts (counts : Counts s g G) : Counts s' g G' := by
  obtain ⟨locks, users, -, count, disk⟩ := counts
  have moved (f : Stage → Nat) :
      sum (Pc.weight f g) s' + f stage = sum (Pc.weight f g) s + q.weight f g := by
    rw [← Pc.weight_at f]
    exact c.moved _
  constructor
  case locks =>
    have := moved holds
    have := c.locks
    omega
  case users =>
    have := moved uses
    have := c.users
    omega
  case live => exact c.live
  case count =>
    have := moved given
    have := moved taken
    have := c.count
    omega
  case disk =>
    have := moved givenDisk
    have := moved takenDisk
    have := c.disk
    omega

/-- The step does not count in another group. -/
theorem Change.counts_of_ne {g' : Nat} {G₁ : Group} (other : g' ≠ g) (counts : Counts s g' G₁) :
    Counts s' g' G₁ := by
  obtain ⟨locks, users, live, count, disk⟩ := counts
  have still (f : Stage → Nat) (zero : f (.get .alloc) = 0) :
      sum (Pc.weight f g') s' = sum (Pc.weight f g') s := by
    have moved := c.moved (Pc.weight f g')
    have before : (Pc.at g stage).weight f g' = 0 := if_neg (Ne.symm other)
    rw [before, c.away zero other] at moved
    exact moved
  constructor
  case locks => rw [still _ rfl]; exact locks
  case users => rw [still _ rfl]; exact users
  case live => exact live
  case count => rw [still _ rfl, still _ rfl]; exact count
  case disk => rw [still _ rfl, still _ rfl]; exact disk

/-- Two calls do not have the lock of the group at once. -/
theorem Change.quiet_or_free (h : Inv s₀ s) {t' : Nat} {stage' : Stage}
    (there : s.threads[t']? = some (.at g stage')) (other : t' ≠ t) :
    G'.bitmap = G.bitmap ∨ stage'.holds = 0 := by
  rcases c.quiet with quiet | holds
  · exact .inl quiet
  · have both := add_le_sum (Pc.weight Stage.holds g) c.here there other
    have locks := (h.counts c.found).locks
    have one : G.locked.toNat ≤ 1 := toNat_le _
    rw [Pc.weight_at, Pc.weight_at] at both
    change _ ≤ sum (Pc.weight Stage.holds g) s at both
    omega

/-- What another call relies on is still so. -/
theorem Change.pcOk_of_ne (h : Inv s₀ s) {t' : Nat} {p : Pc} (there : s.threads[t']? = some p)
    (other : t' ≠ t) : p.Ok s' := by
  have ok := h.pcs (mem_of_getElem? there)
  cases p with
  | idle => trivial
  | reserve hint =>
    change hint < s'.groups.length
    rw [c.groups, length_set]
    exact ok
  | failed => exact ok
  | «at» g' stage' =>
    obtain ⟨G₁, found, ok⟩ := ok
    by_cases group : g' = g
    · subst group
      cases c.found.symm.trans found
      exact ⟨G', c.new, ok.of_same c.size (c.quiet_or_free h there other)⟩
    · exact ⟨G₁, (c.old group).trans found, ok⟩

end Changed

theorem Inv.change (h : Inv s₀ s) (c : Change s₀ s s' t g stage G G' q) : Inv s₀ s' := by
  constructor
  case first => exact c.first.trans h.first
  case per => exact c.per.trans h.per
  case sizes =>
    rw [c.groups, map_set_same _ c.found c.size]
    exact h.sizes
  case shape =>
    intro g' G₁ there
    by_cases same : g' = g
    · subst same
      cases c.new.symm.trans there
      exact c.shape (h.shape c.found)
    · rw [c.old same] at there
      obtain ⟨size_le, size_bits, beyond⟩ := h.shape there
      exact ⟨c.per ▸ size_le, size_bits, beyond⟩
  case counts =>
    intro g' G₁ there
    by_cases same : g' = g
    · subst same
      cases c.new.symm.trans there
      exact c.counts (h.counts c.found)
    · rw [c.old same] at there
      exact c.counts_of_ne same (h.counts there)
  case one =>
    intro b
    have before := h.one b
    have now := c.one b
    have := c.moved (Pc.has s₀ b)
    omega
  case total =>
    have before := h.total
    have now := c.total
    have first := c.moved (Pc.total reserved)
    have second := c.moved (Pc.total returning)
    have zeros := sum_set (y := G') zeros c.found
    change _ + stage.reserved = _ at first
    change _ + stage.returning = _ at second
    rw [c.groups]
    omega
  case pcs =>
    intro p mem
    rw [c.threads] at mem
    obtain ⟨t', there⟩ := mem_iff_getElem?.mp mem
    by_cases same : t' = t
    · subst same
      rw [getElem?_set_self (List.getElem?_eq_some_iff.mp c.here).1] at there
      cases there
      exact c.ok
    · rw [getElem?_set_ne (Ne.symm same)] at there
      exact c.pcOk_of_ne h there same

theorem isFree_of_bits (first : s'.firstDataBlock = s.firstDataBlock)
    (per : s'.blocksPerGroup = s.blocksPerGroup)
    (groups : s'.groups = s.groups.set g G') (found : s.groups[g]? = some G)
    (size : G'.size = G.size)
    (same : ∀ k < G.size, b = s.block g k → bit G'.bitmap k = bit G.bitmap k) :
    isFree s' b = isFree s b := by
  have g_lt := (List.getElem?_eq_some_iff.mp found).1
  unfold isFree
  rw [first, per, groups]
  by_cases here : (b - s.firstDataBlock) / s.blocksPerGroup = g
  · rw [here, getElem?_set_self g_lt, found]
    dsimp only
    rw [size]
    by_cases inside : (b - s.firstDataBlock) % s.blocksPerGroup < G.size
    · by_cases above : s.firstDataBlock ≤ b
      · rw [same _ inside]
        unfold E2Fs.block
        have := Nat.mod_add_div (b - s.firstDataBlock) s.blocksPerGroup
        rw [here, Nat.mul_comm] at this
        omega
      · simp [above]
    · simp [inside]
  · rw [getElem?_set_ne (Ne.symm here)]

theorem Stage.le_holds (stage : Stage) : stage.given ≤ stage.holds ∧
    stage.taken ≤ stage.holds ∧
    stage.givenDisk ≤ stage.holds ∧ stage.takenDisk ≤ stage.holds ∧
      stage.holds ≤ stage.uses := by
  cases stage <;> simp [given, taken, givenDisk, takenDisk, holds, uses]

theorem Stage.uses_of_holds (holds : stage.holds = 1) : stage.uses = 1 := by
  cases stage <;> first | rfl | cases holds

/-- What no other call has in a group. -/
theorem sum_weight_of_alone {f h : Stage → Nat} (here : s.threads[t]? = some (.at g stage))
    (le : ∀ stage, f stage ≤ h stage) (alone : sum (Pc.weight h g) s ≤ h stage) :
    sum (Pc.weight f g) s = f stage := by
  have all : sum (Pc.weight f g) s = (Pc.at g stage).weight f g := by
    refine sum_eq_of_alone (y := .idle) (h := Pc.weight h g) ?_ here rfl ?_
    · intro p
      unfold Pc.weight
      split
      · split
        · exact le _
        · exact le_rfl
      · exact le_rfl
    · rw [Pc.weight_at]
      exact alone
  rw [all, Pc.weight_at]

theorem Inv.group_at_start (h : Inv s₀ s) (found : s.groups[g]? = some G) :
    ∃ G₀, s₀.groups[g]? = some G₀ ∧ G.size = G₀.size := by
  have sizes := congrArg (·[g]?) h.sizes
  simp only [getElem?_map, found, map_some] at sizes
  obtain ⟨G₀, start, eq⟩ := map_eq_some_iff.mp sizes.symm
  exact ⟨G₀, start, eq.symm⟩

theorem Inv.block_eq (h : Inv s₀ s) : s₀.block g k = s.block g k := by
  unfold E2Fs.block
  rw [h.first, h.per]

variable {stage' : Stage}

/-- A call in a group. -/
structure InGroup (s₀ s : E2Fs) (t g : Nat) (stage : Stage) (G : Group) :
    Prop extends Inv s₀ s where
  here : s.threads[t]? = some (.at g stage)
  found : s.groups[g]? = some G

section

variable (h : InGroup s₀ s t g stage G)
include h

theorem InGroup.groups_set : s.groups = s.groups.set g G := by
  obtain ⟨g_lt, eq⟩ := List.getElem?_eq_some_iff.mp h.found
  rw [← eq, set_getElem_self]

theorem InGroup.stage_ok : stage.Ok G := by
  obtain ⟨G₁, found₁, ok⟩ := h.pcs (mem_of_getElem? h.here)
  cases h.found.symm.trans found₁
  exact ok

/-- With the lock, the counts are right but for what this call has to count. -/
theorem InGroup.counts_locked (holds : stage.holds = 1) :
    G.count + stage.given = zeros G + stage.taken ∧
      G.freeBlockCount + stage.givenDisk = zeros G + stage.takenDisk := by
  obtain ⟨locks, -, -, count, disk⟩ := h.counts h.found
  have one : G.locked.toNat ≤ 1 := toNat_le _
  have alone (f : Stage → Nat) (le : ∀ stage, f stage ≤ stage.holds) :
      sum (Pc.weight f g) s = f stage := by
    apply sum_weight_of_alone h.here le
    omega
  rw [alone _ fun stage => stage.le_holds.1, alone _ fun stage => stage.le_holds.2.1] at count
  rw [alone _ fun stage => stage.le_holds.2.2.1, alone _ fun stage =>
    stage.le_holds.2.2.2.1] at disk
  exact ⟨count, disk⟩

/-- A call goes on in its group, whose bitmap stays as it is. -/
theorem InGroup.proceed (threads : s'.threads = s.threads.set t (.at g stage'))
    (groups : s'.groups = s.groups.set g G')
    (first : s'.firstDataBlock = s.firstDataBlock) (per : s'.blocksPerGroup = s.blocksPerGroup)
    (owned : s'.owned = s.owned) (size : G'.size = G.size) (bitmap : G'.bitmap = G.bitmap)
    (locks : stage'.holds + G.locked.toNat = stage.holds + G'.locked.toNat)
    (users : stage'.uses + G.users = stage.uses + G'.users) (live : ∀ {d}, G'.desc = some d →
    0 < d.users)
    (count : G'.count + stage'.given + stage.taken = G.count + stage.given + stage'.taken)
    (disk : G'.freeBlockCount + stage'.givenDisk + stage.takenDisk =
      G.freeBlockCount + stage.givenDisk + stage'.takenDisk)
    (same : (Pc.at g stage').block s₀ = (Pc.at g stage).block s₀)
    (total : s'.freeBlocks + stage'.reserved + stage'.returning =
      s.freeBlocks + stage.reserved + stage.returning) (ok : stage'.Ok G) : Inv s₀ s' := by
  have zero : zeros G' = zeros G := by rw [zeros, zeros, size, bitmap]
  suffices c : Change s₀ s s' t g stage G G' (.at g stage') from h.change c
  constructor
  case here => exact h.here
  case found => exact h.found
  case first | per | threads | groups | size | live => assumption
  case length => rw [bitmap]
  case beyond => exact fun _ => by rw [bitmap]
  case quiet => exact .inl bitmap
  case away => exact fun _ other => if_neg (Ne.symm other)
  case locks => rw [Pc.weight_at]; exact locks
  case users => rw [Pc.weight_at]; exact users
  case count | disk => rw [Pc.weight_at, Pc.weight_at, zero]; omega
  case one =>
    intro b
    have free : isFree s' b = isFree s b :=
      isFree_of_bits first per groups h.found size fun k _ _ => by rw [bitmap]
    rw [free, owned, Pc.has, Pc.has, same]
  case total =>
    change _ + stage'.reserved + stage'.returning + _ = _
    omega
  case ok =>
    have g_lt := (List.getElem?_eq_some_iff.mp h.found).1
    exact ⟨G', by rw [groups, getElem?_set_self g_lt], ok.of_same size (.inl bitmap)⟩

/-- A call goes on in its group, which stays as it is. -/
theorem InGroup.goto (locks : stage'.holds = stage.holds) (users : stage'.uses = stage.uses)
    (count : stage'.given + stage.taken = stage.given + stage'.taken)
    (disk : stage'.givenDisk + stage.takenDisk = stage.givenDisk + stage'.takenDisk)
    (same : (Pc.at g stage').block s₀ = (Pc.at g stage).block s₀)
    (total : stage'.reserved + stage'.returning = stage.reserved + stage.returning)
    (ok : stage'.Ok G) : Inv s₀ (s.goto t (.at g stage')) := by
  refine h.proceed rfl h.groups_set rfl rfl rfl rfl rfl ?_ ?_ (h.counts h.found).live ?_
    ?_ same ?_ ok
  · omega
  · omega
  · omega
  · omega
  · change s.freeBlocks + _ + _ = _
    omega

end

/-- Only what was free at the start is free, or has been handed out. -/
theorem Inv.free_at_start (h : Inv s₀ s)
    (some : 0 < s.owned.count b + sum (Pc.has s₀ b) s + (isFree s b).toNat) :
    isFree s₀ b = true := by
  have one := h.one b
  cases start : isFree s₀ b with
  | true => rfl
  | false =>
    rw [start, toNat_false] at one
    omega

/-- A call that has a block, and a block that it is about. -/
theorem Inv.has_block (h : Inv s₀ s) (here : s.threads[t]? = some p)
    (block : p.block s₀ = some b) : isFree s₀ b = true ∧ isFree s b = false := by
  have has : p.has s₀ b = 1 := if_pos block
  have le := le_sum (Pc.has s₀ b) here
  change _ ≤ sum (Pc.has s₀ b) s at le
  have one := h.one b
  refine ⟨h.free_at_start (by omega), ?_⟩
  have start := toNat_le (isFree s₀ b)
  cases now : isFree s b with
  | false => rfl
  | true =>
    rw [now, toNat_true] at one
    omega

/-- The block of a call is in use. -/
theorem InGroup.bit_of_block (h : InGroup s₀ s t g stage G)
    (block : (Pc.at g stage).block s₀ = some (s₀.block g k)) (k_lt : k < G.size) :
    bit G.bitmap k = true := by
  obtain ⟨-, used⟩ := h.has_block h.here block
  rw [h.block_eq, isFree_block h.found (h.shape h.found) k_lt] at used
  simpa using used

theorem Pc.has_of_none (none : p.block s₀ = none) : p.has s₀ b = 0 := by
  rw [Pc.has, none, if_neg nofun]

theorem Pc.has_of_some {x : Nat} (some : p.block s₀ = some x) : p.has s₀ b = if x = b then 1
    else 0 := by
  rw [Pc.has, some]
  simp

variable {bitmap : List (BitVec 64)} {op : Op} {d : Desc}

/-- A call with the lock flips one bit of the bitmap. -/
theorem InGroup.flip (h : InGroup s₀ s t g stage G) (holds : stage.holds = 1) (k_lt : k < G.size)
    (length : bitmap.length = G.bitmap.length)
    (same : ∀ j, j ≠ k → bit bitmap j = bit G.bitmap j)
    (locks : stage'.holds = stage.holds) (users : stage'.uses = stage.uses)
    (count : stage'.given + zeros G + stage.taken =
      stage.given + zeros { G with bitmap } + stage'.taken)
    (disk : stage'.givenDisk + zeros G + stage.takenDisk =
      stage.givenDisk + zeros { G with bitmap } + stage'.takenDisk)
    (total : stage'.reserved + stage'.returning + zeros G =
      stage.reserved + stage.returning + zeros { G with bitmap })
    (one : (Pc.at g stage').has s₀ (s.block g k) + (!bit bitmap k).toNat ≤
      (Pc.at g stage).has s₀ (s.block g k) + (!bit G.bitmap k).toNat)
    (others : ∀ b, b ≠ s.block g k →
    (Pc.at g stage').has s₀ b ≤ (Pc.at g stage).has s₀ b)
    (ok : stage'.Ok { G with bitmap }) :
    Inv s₀ (s.update t g { G with bitmap } (.at g stage')) := by
  let s' := s.update t g { G with bitmap } (.at g stage')
  have g_lt := (List.getElem?_eq_some_iff.mp h.found).1
  have new : s'.groups[g]? = some { G with bitmap } := getElem?_set_self g_lt
  obtain ⟨size_le, size_bits, beyond⟩ := h.shape h.found
  suffices c : Change s₀ s s' t g stage G { G with bitmap } (.at g stage') from h.change c
  constructor
  case here => exact h.here
  case found => exact h.found
  case first | per | threads | groups | size => rfl
  case length => exact length
  case beyond => exact fun outside => same _ (by omega)
  case quiet => exact .inr holds
  case away => exact fun _ other => if_neg (Ne.symm other)
  case locks =>
    rw [Pc.weight_at, locks]
    rfl
  case users =>
    rw [Pc.weight_at, users]
    rfl
  case live => exact (h.counts h.found).live
  case count =>
    rw [Pc.weight_at, Pc.weight_at]
    change G.count + _ + _ + _ = _
    omega
  case disk =>
    rw [Pc.weight_at, Pc.weight_at]
    change G.freeBlockCount + _ + _ + _ = _
    omega
  case one =>
    intro b
    change s.owned.count b + _ + _ ≤ _
    by_cases this : b = s.block g k
    · have shape : Shape s' { G with bitmap } := by
        refine ⟨size_le, by rw [length]; exact size_bits, fun j outside inside => ?_⟩
        rw [length] at inside
        change G.size ≤ j at outside
        rw [same j (by omega)]
        exact beyond j outside inside
      have was := isFree_block h.found (h.shape h.found) k_lt
      have now : isFree s' (s.block g k) = !bit bitmap k := isFree_block new shape k_lt
      rw [this, was, now]
      omega
    · have free : isFree s' b = isFree s b := by
        refine isFree_of_bits rfl rfl rfl h.found rfl fun j _ eq => same j ?_
        rintro rfl
        exact this eq
      have := others b this
      rw [free]
      omega
  case total =>
    change s.freeBlocks + stage'.reserved + stage'.returning + _ = _
    omega
  case ok => exact ⟨_, new, ok⟩

/-- One bit of a bitmap is cleared. -/
theorem zeros_succ {bitmap' : List (BitVec 64)} (k_lt : k < G.size) (set : bit bitmap k = true)
    (clear : bit bitmap' k = false) (same : ∀ j, j ≠ k → bit bitmap' j = bit bitmap j) :
    zeros { G with bitmap := bitmap' } = zeros { G with bitmap } + 1 := by
  apply count_succ_of_flip k_lt
  · rw [set]
    rfl
  · rw [clear]
    rfl
  · intro j other
    rw [same j other]

variable {word : BitVec 64}

/-- The bit that a call sets was clear, and is one of a block of the group. -/
theorem InGroup.mark_clear (h : InGroup s₀ s t g (.mark i word) G) : trailingOnes word < 64 ∧
    trailingOnes word + i * 64 < G.size ∧
      bit G.bitmap (trailingOnes word + i * 64) = false := by
  obtain ⟨at_i, some⟩ := h.stage_ok
  have i_lt := (List.getElem?_eq_some_iff.mp at_i).1
  have less := trailingOnes_lt some
  have off : bit G.bitmap (trailingOnes word + i * 64) = false := by
    rw [bit_eq at_i less]
    exact trailingOnes_spec less
  refine ⟨less, ?_, off⟩
  -- the bits behind the blocks of the group are set
  by_contra outside
  rw [(h.shape h.found).beyond _ (by omega) (by omega)] at off
  cases off

theorem InGroup.mark (h : InGroup s₀ s t g (.mark i word) G) :
    Inv s₀ (s.update t g { G with bitmap := G.bitmap.set i (word ||| 1#64 <<< trailingOnes word) }
      (.at g (.take (trailingOnes word + i * 64)))) := by
  obtain ⟨less, k_lt, off⟩ := h.mark_clear
  have bits (j : Nat) := bit_set_or (b := j) h.stage_ok.1 less
  generalize trailingOnes word + i * 64 = k at bits off k_lt ⊢
  have set : bit (G.bitmap.set i (word ||| 1#64 <<< trailingOnes word)) k = true := by
    rw [bits]
    simp
  have same (j : Nat) (other : j ≠ k) :
      bit (G.bitmap.set i (word ||| 1#64 <<< trailingOnes word)) j = bit G.bitmap j := by
    rw [bits]
    simp [other]
  have fewer := zeros_succ k_lt set off fun j other => (same j other).symm
  change zeros G = _ at fewer
  refine h.flip rfl k_lt length_set same rfl rfl ?_ ?_ ?_ ?_ ?_ ?_
  · change 0 + zeros G + 0 = 0 + _ + 1
    omega
  · change 0 + zeros G + 0 = 0 + _ + 1
    omega
  · change 0 + 0 + zeros G = 1 + 0 + _
    omega
  · rw [Pc.has_of_some rfl, Pc.has_of_none rfl, h.block_eq, if_pos rfl, set, off]
    rfl
  · intro b other
    rw [Pc.has_of_some rfl, h.block_eq, if_neg (Ne.symm other)]
    exact Nat.zero_le _
  · exact k_lt

theorem InGroup.clear (h : InGroup s₀ s t g (.clear k word) G) :
    Inv s₀ (s.update t g
      { G with bitmap := G.bitmap.set (k / 64) (word &&& ~~~(1#64 <<< (k % 64))) }
      (.at g (.give k))) := by
  obtain ⟨k_lt, word_eq⟩ := h.stage_ok
  have less : k % 64 < 64 := Nat.mod_lt _ (by decide)
  have place : k % 64 + k / 64 * 64 = k := by omega
  have bits (j : Nat) := bit_set_and_not (b := j) word_eq less
  rw [place] at bits
  have set := h.bit_of_block rfl k_lt
  have off : bit (G.bitmap.set (k / 64) (word &&& ~~~(1#64 <<< (k % 64)))) k = false := by
    rw [bits]
    simp
  have same (j : Nat) (other : j ≠ k) :
      bit (G.bitmap.set (k / 64) (word &&& ~~~(1#64 <<< (k % 64)))) j = bit G.bitmap j := by
    rw [bits]
    simp [other]
  have more := zeros_succ k_lt set off same
  change _ = zeros G + 1 at more
  refine h.flip rfl k_lt length_set same rfl rfl ?_ ?_ ?_ ?_ ?_ ?_
  · change 1 + zeros G + 0 = 0 + _ + 0
    omega
  · change 1 + zeros G + 0 = 0 + _ + 0
    omega
  · change 0 + 1 + zeros G = 0 + 0 + _
    omega
  · rw [Pc.has_of_none rfl, Pc.has_of_some rfl, h.block_eq, if_pos rfl, set, off]
    rfl
  · intro b _
    exact Nat.zero_le _
  · exact k_lt

/-- The descriptor that a call uses is in memory. -/
theorem InGroup.desc (h : InGroup s₀ s t g stage G) (uses : stage.uses = 1) : ∃ d,
    G.desc = some d ∧ 0 < d.users := by
  have le := le_sum (Pc.weight Stage.uses g) h.here
  change _ ≤ sum (Pc.weight Stage.uses g) s at le
  rw [Pc.weight_at, (h.counts h.found).users, uses, Group.users] at le
  cases some : G.desc with
  | none =>
    rw [some] at le
    cases le
  | some d => exact ⟨d, rfl, (h.counts h.found).live some⟩

/-- Another call uses the descriptor of a group, or one does not any more. -/
structure Shared (G G' : Group) : Prop where
  size : G'.size = G.size
  bitmap : G'.bitmap = G.bitmap
  disk : G'.freeBlockCount = G.freeBlockCount
  locked : G'.locked = G.locked
  count : G'.count = G.count
  live {d : Desc} : G'.desc = some d → 0 < d.users

theorem Group.acquire_spec (G : Group) : Shared G G.acquire ∧ G.acquire.users = G.users + 1 := by
  obtain ⟨size, bitmap, disk, desc⟩ := G
  cases desc <;> exact ⟨⟨rfl, rfl, rfl, rfl, rfl, fun | rfl => Nat.succ_pos _⟩, rfl⟩

theorem InGroup.get (h : InGroup s₀ s t g (.get op) G) :
    Inv s₀ (s.update t g G.acquire (.at g (.lock op))) := by
  obtain ⟨⟨size, bitmap, disk, locked, count, live⟩, users⟩ := G.acquire_spec
  refine h.proceed rfl rfl rfl rfl rfl size bitmap ?_ ?_ live ?_ ?_ ?_ ?_ ?_
  · rw [locked]
    rfl
  · change 1 + G.users = 0 + _
    omega
  · rw [count]
    rfl
  · rw [disk]
    rfl
  · cases op <;> rfl
  · cases op <;> rfl
  · cases op <;> exact h.stage_ok

theorem Group.setLocked_spec (some : G.desc = some d) (b : Bool) : (G.setLocked b).locked = b ∧
    (G.setLocked b).users = G.users ∧ (G.setLocked b).count = G.count ∧
    ∀ d', (G.setLocked b).desc = .some d' → d'.users = d.users := by
  obtain ⟨size, bitmap, disk, desc⟩ := G
  cases some
  simp [setLocked, locked, users, count]

theorem InGroup.lock (h : InGroup s₀ s t g (.lock op) G) (free : G.locked = false) :
    Inv s₀ (s.update t g (G.setLocked true) (.at g op.first)) := by
  obtain ⟨d, desc, positive⟩ := h.desc rfl
  obtain ⟨locked, users, count, live⟩ := Group.setLocked_spec desc true
  refine h.proceed rfl rfl rfl rfl rfl rfl rfl ?_ ?_ (fun some => live _ some ▸ positive)
    ?_ ?_ ?_ ?_ ?_
  · rw [locked, free]
    cases op <;> rfl
  · rw [users]
    cases op <;> rfl
  · rw [count]
    cases op <;> rfl
  · cases op <;> rfl
  · cases op <;> rfl
  · cases op <;> rfl
  · cases op <;> exact h.stage_ok

/-- A count that is changed under the lock. -/
theorem InGroup.setCount {n : Nat} (h : InGroup s₀ s t g stage G) (holds : stage.holds = 1)
    (holds' : stage'.holds = 1)
    (count : n + stage'.given + stage.taken = G.count + stage.given + stage'.taken)
    (disk : stage'.givenDisk + stage.takenDisk = stage.givenDisk + stage'.takenDisk)
    (same : (Pc.at g stage').block s₀ = (Pc.at g stage).block s₀)
    (total : stage'.reserved + stage'.returning = stage.reserved + stage.returning)
    (ok : stage'.Ok G) : Inv s₀ (s.update t g (G.setCount n) (.at g stage')) := by
  obtain ⟨d, desc, positive⟩ := h.desc (uses_of_holds holds)
  refine h.proceed rfl rfl rfl rfl rfl rfl rfl ?_ ?_ ?_ ?_ ?_ same ?_ ok
  · rw [holds, holds', Group.locked, Group.locked, Group.setCount, desc]
    rfl
  · rw [uses_of_holds holds, uses_of_holds holds', Group.users, Group.users, Group.setCount, desc]
    rfl
  · intro d' some
    rw [Group.setCount, desc] at some
    cases some
    exact positive
  · have new : (G.setCount n).count = n := by rw [Group.count, Group.setCount, desc]; rfl
    rw [new]
    exact count
  · change G.freeBlockCount + _ + _ = _
    omega
  · change s.freeBlocks + _ + _ = _
    omega

/-- The count is written to the disk under the lock. -/
theorem InGroup.store (h : InGroup s₀ s t g stage G) (holds : stage.holds = 1)
    (locks : stage'.holds = stage.holds) (users : stage'.uses = stage.uses)
    (counted : stage.given = 0 ∧ stage.taken = 0) (count : stage'.given = 0 ∧ stage'.taken = 0)
    (disk : stage'.givenDisk = 0 ∧ stage'.takenDisk = 0)
    (same : (Pc.at g stage').block s₀ = (Pc.at g stage).block s₀)
    (total : stage'.reserved + stage'.returning = stage.reserved + stage.returning)
    (ok : stage'.Ok G) :
    Inv s₀ (s.update t g { G with freeBlockCount := G.count } (.at g stage')) := by
  obtain ⟨right, wrong⟩ := h.counts_locked holds
  obtain ⟨d, desc, -⟩ := h.desc (uses_of_holds holds)
  refine h.proceed rfl rfl rfl rfl rfl rfl rfl ?_ ?_ (h.counts h.found).live ?_ ?_ same ?_ ok
  · rw [locks]
    rfl
  · rw [users]
    rfl
  · have new : Group.count { G with freeBlockCount := G.count } = G.count := by
      rw [Group.count, Group.count, desc]
    omega
  · change G.count + _ + _ = _
    omega
  · change s.freeBlocks + _ + _ = _
    omega

variable {next : Next}

theorem InGroup.unlock (h : InGroup s₀ s t g (.unlock next) G) :
    Inv s₀ (s.update t g (G.setLocked false) (.at g (.drop next))) := by
  obtain ⟨d, desc, positive⟩ := h.desc rfl
  obtain ⟨locked, users, count, live⟩ := Group.setLocked_spec desc false
  have held : G.locked = true := by
    have le := le_sum (Pc.weight holds g) h.here
    change _ ≤ sum (Pc.weight holds g) s at le
    rw [Pc.weight_at, (h.counts h.found).locks] at le
    cases free : G.locked with
    | true => rfl
    | false =>
      rw [free] at le
      cases le
  refine h.proceed rfl rfl rfl rfl rfl rfl rfl ?_ ?_ (fun some => live _ some ▸ positive) ?_
    rfl ?_ ?_ trivial
  · rw [locked, held]
    rfl
  · rw [users]
    rfl
  · rw [count]
    rfl
  · cases next <;> rfl
  · cases next <;> rfl

theorem Group.release_spec (some : G.desc = some d) (positive : 0 < d.users)
    (last : d.users ≤ 1 → G.locked = false ∧ G.count = G.freeBlockCount) :
    Shared G G.release ∧ G.users = 1 + G.release.users := by
  obtain ⟨size, bitmap, disk, desc⟩ := G
  cases some
  by_cases alone : d.users ≤ 1
  · obtain ⟨free, eq⟩ := last alone
    simp only [release, users, if_pos alone]
    exact ⟨⟨rfl, rfl, rfl, free.symm, eq.symm, nofun⟩, by omega⟩
  · simp only [release, users, if_neg alone]
    exact ⟨⟨rfl, rfl, rfl, rfl, rfl, fun | rfl => Nat.sub_pos_of_lt (by omega)⟩, by omega⟩

/-- The last call that uses a descriptor leaves nothing in it that is not on the disk. -/
theorem InGroup.release_spec (h : InGroup s₀ s t g (.drop next) G) :
    Shared G G.release ∧ G.users = 1 + G.release.users := by
  obtain ⟨d, desc, positive⟩ := h.desc rfl
  obtain ⟨locks, users, live, count, disk⟩ := h.counts h.found
  apply Group.release_spec desc positive
  intro alone
  have eq : G.users = d.users := by rw [Group.users, desc]
  have nothing (f : Stage → Nat) (le : ∀ stage, f stage ≤ stage.holds)
    (zero : f (.drop next) = 0) :
      sum (Pc.weight f g) s = 0 := by
    rw [← zero]
    apply sum_weight_of_alone h.here
    · exact fun stage => (le stage).trans stage.le_holds.2.2.2.2
    · change _ ≤ 1
      omega
  rw [nothing holds (fun _ => le_rfl) rfl] at locks
  rw [nothing given (fun stage => stage.le_holds.1) rfl,
    nothing taken (fun stage => stage.le_holds.2.1) rfl] at count
  rw [nothing givenDisk (fun stage => stage.le_holds.2.2.1) rfl,
    nothing takenDisk (fun stage => stage.le_holds.2.2.2.1) rfl] at disk
  constructor
  · cases free : G.locked with
    | false => rfl
    | true =>
      rw [free] at locks
      cases locks
  · omega

/-- A call leaves its group. -/
theorem InGroup.drop (h : InGroup s₀ s t g (.drop next) G)
    (threads : s'.threads = s.threads.set t q) (groups : s'.groups = s.groups.set g G.release)
    (first : s'.firstDataBlock = s.firstDataBlock) (per : s'.blocksPerGroup = s.blocksPerGroup)
    (same : s'.freeBlocks = s.freeBlocks) (away : ∀ f g', f (.get .alloc) = 0 → q.weight f g' = 0)
    (one : ∀ b, s'.owned.count b + q.has s₀ b ≤ s.owned.count b + (Pc.at g (.drop next)).has s₀ b)
    (total : q.total reserved = (drop next).reserved) (returning : q.total returning = 0)
    (ok : q.Ok s') : Inv s₀ s' := by
  obtain ⟨⟨size, bitmap, disk_eq, locked, count_eq, live⟩, users_eq⟩ := h.release_spec
  have zero : zeros G.release = zeros G := by rw [zeros, zeros, size, bitmap]
  suffices c : Change s₀ s s' t g (.drop next) G G.release q from h.change c
  constructor
  case here => exact h.here
  case found => exact h.found
  case first | per | threads | groups | size | live | ok => assumption
  case length => rw [bitmap]
  case beyond => exact fun _ => by rw [bitmap]
  case quiet => exact .inl bitmap
  case away => exact fun zero _ => away _ _ zero
  case locks =>
    rw [away _ _ rfl, locked]
    rfl
  case users =>
    rw [away _ _ rfl, users_eq, Nat.zero_add]
    rfl
  case count =>
    rw [away _ _ rfl, away _ _ rfl, count_eq, zero]
    rfl
  case disk =>
    rw [away _ _ rfl, away _ _ rfl, disk_eq, zero]
    rfl
  case one =>
    intro b
    have free : isFree s' b = isFree s b :=
      isFree_of_bits first per groups h.found size fun k _ _ => by rw [bitmap]
    have := one b
    rw [free]
    omega
  case total =>
    rw [same, total, returning, zero]
    cases next <;> rfl

theorem exists_of_zeros (some : 0 < zeros G) : ∃ k < G.size, bit G.bitmap k = false := by
  by_contra none
  have full (k : Nat) (less : k < G.size) : ¬ (!bit G.bitmap k) = true := by
    intro clear
    exact none ⟨k, less, by simpa using clear⟩
  have zero : zeros G = 0 := by
    exact Nat.count_of_forall_not full
  omega

/-- The scan finds a word with a bit that is clear before the end of the bitmap. -/
theorem InGroup.scan_word (h : InGroup s₀ s t g (.scan i) G) :
    i < (s.blocksPerGroup + 7) / 8 ∧ ∃ word, G.bitmap[i]? = some word := by
  obtain ⟨full, some⟩ := h.stage_ok
  obtain ⟨k, k_lt, clear⟩ := exists_of_zeros some
  obtain ⟨size_le, size_bits, -⟩ := h.shape h.found
  have far : i ≤ k / 64 := by
    by_contra near
    have word := full (k / 64) (by omega)
    rw [bit, word] at clear
    simp only [getD_some, BitVec.getLsbD_allOnes, decide_eq_false_iff_not] at clear
    exact clear (Nat.mod_lt _ (by decide))
  have inside : i < G.bitmap.length := by omega
  exact ⟨by omega, _, getElem?_eq_getElem inside⟩

/-- Only what was free at the start is free. -/
theorem Inv.zeros_le (h : Inv s₀ s) (consistent : Consistent s₀)
    (found : s.groups[g]? = some G) : zeros G < 65536 := by
  obtain ⟨G₀, start, -⟩ := h.group_at_start found
  have was (k : Nat) (k_lt : k < G.size) (clear : (!bit G.bitmap k) = true) :
      k < G₀.size ∧ (!bit G₀.bitmap k) = true := by
    have before := h.free_at_start (by
      rw [isFree_block found (h.shape found) k_lt, clear]
      exact Nat.succ_pos _)
    obtain ⟨-, div, mod⟩ :=
      block_parts (h.per ▸ Nat.lt_of_lt_of_le k_lt (h.shape found).size_le)
    unfold isFree at before
    rw [← h.block_eq, div, mod, start] at before
    simp only [and_eq_true, decide_eq_true_eq] at before
    exact before.2
  have le : zeros G ≤ zeros G₀ := by
    unfold zeros
    rw [Nat.count_eq_card_filter_range, Nat.count_eq_card_filter_range]
    apply Finset.card_le_card
    intro k
    simp only [Finset.mem_filter, Finset.mem_range]
    rintro ⟨k_lt, clear⟩
    exact was k k_lt clear
  have fits := consistent.fits start
  rw [consistent.count start] at fits
  exact le.trans_lt fits

theorem InGroup.check (h : InGroup s₀ s t g .check G) :
    Inv s₀ (s.goto t (.at g (if 0 < G.count then .scan 0 else .unlock .retry))) := by
  by_cases some : 0 < G.count
  · rw [if_pos some]
    refine h.goto rfl rfl rfl rfl rfl rfl ⟨fun j less => absurd less (Nat.not_lt_zero j), ?_⟩
    obtain ⟨count, -⟩ := h.counts_locked rfl
    change G.count + 0 = zeros G + 0 at count
    omega
  · rw [if_neg some]
    exact h.goto rfl rfl rfl rfl rfl rfl trivial

theorem InGroup.scan (h : InGroup s₀ s t g (.scan i) G)
    (run : s.runAt t g G (.scan i) = some s') : Inv s₀ s' := by
  obtain ⟨full, some⟩ := h.stage_ok
  obtain ⟨bound, word, at_i⟩ := h.scan_word
  rw [E2Fs.runAt, if_pos bound, at_i] at run
  cases run
  dsimp only
  by_cases zero : word ≠ BitVec.allOnes 64
  · rw [if_pos zero]
    exact h.goto rfl rfl rfl rfl rfl rfl ⟨at_i, zero⟩
  · rw [if_neg zero]
    refine h.goto rfl rfl rfl rfl rfl rfl ⟨fun j less => ?_, some⟩
    rcases Nat.lt_succ_iff_lt_or_eq.mp less with before | rfl
    · exact full j before
    · rw [at_i, not_ne_iff.mp zero]

/-- The bit of the block is set when `free_block` looks. -/
theorem InGroup.read_word (h : InGroup s₀ s t g (.read k) G) :
    k < G.size ∧ ∃ word, G.bitmap[k / 64]? = some word ∧ word.getLsbD (k % 64) = true := by
  have k_lt : k < G.size := h.stage_ok
  have set := h.bit_of_block rfl k_lt
  have inside : k / 64 < G.bitmap.length := by
    have := (h.shape h.found).size_bits
    omega
  have word := getElem?_eq_getElem inside
  rw [bit, word, getD_some] at set
  exact ⟨k_lt, _, word, set⟩

theorem InGroup.read (h : InGroup s₀ s t g (.read k) G)
    (run : s.runAt t g G (.read k) = some s') : Inv s₀ s' := by
  obtain ⟨k_lt, word, at_k, set⟩ := h.read_word
  rw [E2Fs.runAt, at_k] at run
  dsimp only at run
  rw [if_pos set] at run
  cases run
  exact h.goto rfl rfl rfl rfl rfl rfl ⟨k_lt, at_k⟩

theorem InGroup.take (h : InGroup s₀ s t g (.take k) G) :
    Inv s₀ (s.update t g (G.setCount (G.count - 1)) (.at g (.storeTaken k))) := by
  have k_lt := h.stage_ok
  obtain ⟨count, -⟩ := h.counts_locked rfl
  change G.count + 0 = zeros G + 1 at count
  refine h.setCount rfl rfl ?_ rfl rfl rfl k_lt
  change G.count - 1 + 0 + 1 = G.count + 0 + 0
  omega

theorem InGroup.storeTaken (consistent : Consistent s₀) (h : InGroup s₀ s t g (.storeTaken k) G) :
    s.block g k ≠ 0 ∧ Inv s₀ (s.update t g { G with freeBlockCount := G.count }
      (.at g (.unlock (.allocated (s.block g k))))) := by
  constructor
  · intro zero
    obtain ⟨free, -⟩ := h.has_block h.here rfl
    rw [h.block_eq, zero, consistent.boot] at free
    cases free
  · exact h.store rfl rfl rfl ⟨rfl, rfl⟩ ⟨rfl, rfl⟩ ⟨rfl, rfl⟩
      (congrArg some h.block_eq.symm) rfl trivial

theorem InGroup.give (consistent : Consistent s₀) (h : InGroup s₀ s t g (.give k) G) :
    G.count + 1 < 65536 ∧
      Inv s₀ (s.update t g (G.setCount (G.count + 1)) (.at g (.storeGiven k))) := by
  have k_lt := h.stage_ok
  obtain ⟨count, -⟩ := h.counts_locked rfl
  change G.count + 1 = zeros G + 0 at count
  constructor
  · have := h.zeros_le consistent h.found
    omega
  · exact h.setCount rfl rfl rfl rfl rfl rfl k_lt

theorem InGroup.add (h : InGroup s₀ s t g .add G) :
    Inv s₀ { s.goto t (.at g (.unlock .freed)) with freeBlocks := s.freeBlocks + 1 } := by
  exact h.proceed rfl h.groups_set rfl rfl rfl rfl rfl rfl rfl (h.counts h.found).live
    rfl rfl rfl rfl trivial

theorem InGroup.dropNext (h : InGroup s₀ s t g (.drop next) G)
    (run : s.runAt t g G (.drop next) = some s') : Inv s₀ s' := by
  cases next with
  | retry =>
    cases run
    have pos := Nat.lt_of_le_of_lt (Nat.zero_le _) (List.getElem?_eq_some_iff.mp h.found).1
    refine h.drop rfl rfl rfl rfl rfl ?_ ?_ rfl rfl ?_
    · intro f g' zero
      change (if _ then f (.get .alloc) else 0) = 0
      rw [zero, ite_self]
    · intro b
      exact le_rfl
    · have length : (s.groups.set g G.release).length = s.groups.length := length_set
      have less : (1 + g) % s.groups.length < (s.groups.set g G.release).length := by
        rw [length]
        exact Nat.mod_lt _ pos
      exact ⟨_, getElem?_eq_getElem less, trivial⟩
  | allocated block =>
    cases run
    refine h.drop rfl rfl rfl rfl rfl (fun _ _ _ => rfl) ?_ rfl rfl trivial
    intro b
    rw [Pc.has_of_none rfl, Pc.has_of_some rfl]
    rw [count_cons]
    simp only [beq_iff_eq]
    omega
  | freed =>
    cases run
    refine h.drop rfl rfl rfl rfl rfl (fun _ _ _ => rfl) ?_ rfl rfl trivial
    intro b
    exact le_rfl

theorem InGroup.runAt (consistent : Consistent s₀) (h : InGroup s₀ s t g stage G)
    (run : s.runAt t g G stage = some s') : Inv s₀ s' := by
  cases stage with
  | get op =>
    cases run
    exact h.get
  | lock op =>
    simp only [E2Fs.runAt] at run
    split at run
    · cases run
    · rename_i free
      cases run
      exact h.lock (eq_false_iff.mpr free)
  | check =>
    cases run
    exact h.check
  | scan i => exact h.scan run
  | mark i word =>
    cases run
    exact h.mark
  | take k =>
    cases run
    exact h.take
  | storeTaken k =>
    obtain ⟨block, inv⟩ := h.storeTaken consistent
    rw [E2Fs.runAt, if_neg block] at run
    cases run
    exact inv
  | read k => exact h.read run
  | clear k word =>
    cases run
    exact h.clear
  | give k =>
    obtain ⟨fits, inv⟩ := h.give consistent
    rw [E2Fs.runAt, if_pos fits] at run
    cases run
    exact inv
  | storeGiven k =>
    cases run
    exact h.store rfl rfl rfl ⟨rfl, rfl⟩ ⟨rfl, rfl⟩ ⟨rfl, rfl⟩ rfl rfl trivial
  | add =>
    cases run
    exact h.add
  | unlock next =>
    cases run
    exact h.unlock
  | drop next => exact h.dropNext run

/-- A call outside of the groups, which stay as they are. -/
theorem Inv.outside (h : Inv s₀ s) (here : s.threads[t]? = some p) (before : ∀ f g,
    p.weight f g = 0) (threads : s'.threads = s.threads.set t q) (groups : s'.groups = s.groups)
    (first : s'.firstDataBlock = s.firstDataBlock) (per : s'.blocksPerGroup = s.blocksPerGroup)
    (after : ∀ f g, f (.get .alloc) = 0 → (∀ k, f (.get (.free k)) = 0) → q.weight f g = 0)
    (one : ∀ b, s'.owned.count b + q.has s₀ b ≤ s.owned.count b + p.has s₀ b)
    (total : s'.freeBlocks + q.total reserved + q.total returning =
      s.freeBlocks + p.total reserved + p.total returning)
    (ok : q.Ok s') : Inv s₀ s' := by
  have moved (f : Pc → Nat) : sum f s' + f p = sum f s + f q := by
    rw [sum, threads]
    exact sum_set f here
  have still (f : Stage → Nat) g (zero : f (.get .alloc) = 0)
    (free : ∀ k, f (.get (.free k)) = 0) :
      sum (Pc.weight f g) s' = sum (Pc.weight f g) s := by
    have moved := moved (Pc.weight f g)
    rw [before, after f g zero free] at moved
    exact moved
  constructor
  case first => exact first.trans h.first
  case per => exact per.trans h.per
  case sizes => exact groups ▸ h.sizes
  case shape =>
    intro g G found
    rw [groups] at found
    obtain ⟨size_le, size_bits, beyond⟩ := h.shape found
    exact ⟨per ▸ size_le, size_bits, beyond⟩
  case counts =>
    intro g G found
    rw [groups] at found
    obtain ⟨locks, users, live, count, disk⟩ := h.counts found
    constructor
    case locks => rw [still _ _ rfl fun _ => rfl]; exact locks
    case users => rw [still _ _ rfl fun _ => rfl]; exact users
    case live => exact live
    case count => rw [still _ _ rfl fun _ => rfl, still _ _ rfl fun _ => rfl]; exact count
    case disk => rw [still _ _ rfl fun _ => rfl, still _ _ rfl fun _ => rfl]; exact disk
  case one =>
    intro b
    have same : isFree s' b = isFree s b := by rw [isFree, isFree, first, per, groups]
    have := h.one b
    have := one b
    have := moved (Pc.has s₀ b)
    rw [same]
    omega
  case total =>
    have := h.total
    have := moved (Pc.total reserved)
    have := moved (Pc.total returning)
    rw [groups]
    omega
  case pcs =>
    intro p' mem
    rw [threads] at mem
    rcases mem_set mem with rfl | old
    · exact ok
    · have := h.pcs old
      cases p' with
      | idle => trivial
      | reserve hint =>
        change hint < s'.groups.length
        rw [groups]
        exact this
      | failed => exact this
      | «at» g stage =>
        obtain ⟨G, found, ok⟩ := this
        exact ⟨G, groups ▸ found, ok⟩

theorem Inv.run (consistent : Consistent s₀) (h : Inv s₀ s) (run : s.run t = some s') :
    Inv s₀ s' := by
  unfold E2Fs.run at run
  split at run
  · rename_i hint here
    have ok := h.pcs (mem_of_getElem? here)
    split at run
    · cases run
      refine h.outside here (fun _ _ => rfl) rfl rfl rfl rfl (fun _ _ _ _ => rfl) ?_ rfl trivial
      intro b
      exact le_rfl
    · cases run
      refine h.outside here (fun _ _ => rfl) rfl rfl rfl rfl ?_ ?_ ?_
        ⟨_, getElem?_eq_getElem ok, trivial⟩
      · intro f g zero _
        change (if _ then f (.get .alloc) else 0) = 0
        rw [zero, ite_self]
      · intro b
        exact le_rfl
      · change s.freeBlocks - 1 + 1 + 0 = s.freeBlocks + 0 + 0
        omega
  · rename_i g stage here
    obtain ⟨G, found, run⟩ := bind_eq_some_iff.mp run
    exact InGroup.runAt consistent ⟨h, here, found⟩ run
  · cases run

/-- A block that is to be freed was free at the start, so it is one of a group. -/
theorem Inv.owned_block (h : Inv s₀ s) (mem : b ∈ s.owned) :
    ∃ g G k, s.groups[g]? = some G ∧ k < G.size ∧ b = s.block g k := by
  have positive := count_pos_iff.mpr mem
  have free := h.free_at_start (b := b) (by omega)
  obtain ⟨g, G₀, k, start, k_lt, eq, -⟩ := exists_of_isFree free
  have sizes := congrArg (·[g]?) h.sizes
  simp only [getElem?_map, start, map_some] at sizes
  obtain ⟨G, found, size⟩ := map_eq_some_iff.mp sizes
  exact ⟨g, G, k, found, size ▸ k_lt, eq.trans h.block_eq⟩

theorem Inv.step {event : Event} (consistent : Consistent s₀) (h : Inv s₀ s)
    (run : step event s = some s') : Inv s₀ s' := by
  unfold BlockAlloc.step at run
  cases event with
  | allocBlock t hint =>
    dsimp only at run
    split at run
    · rename_i guard
      cases run
      refine h.outside guard.1 (fun _ _ => rfl) rfl rfl rfl rfl (fun _ _ _ _ => rfl) ?_ rfl guard.2
      intro b
      exact le_rfl
    · cases run
  | freeBlock t block =>
    dsimp only at run
    split at run
    · rename_i guard
      obtain ⟨here, mem⟩ := guard
      obtain ⟨g, G, k, found, k_lt, rfl⟩ := h.owned_block mem
      have per := Nat.lt_of_lt_of_le k_lt (h.shape found).size_le
      obtain ⟨first, div, mod⟩ := block_parts (g := g) per
      rw [div, mod, if_neg (Nat.not_lt.mpr first)] at run
      cases run
      refine h.outside here (fun _ _ => rfl) rfl rfl rfl rfl ?_ ?_ rfl ⟨G, found, k_lt⟩
      · intro f g' _ zero
        change (if _ then f (.get (.free k)) else 0) = 0
        rw [zero, ite_self]
      · intro b
        rw [Pc.has_of_some rfl, Pc.has_of_none rfl, h.block_eq]
        by_cases same : s.block g k = b
        · subst same
          have := count_pos_iff.mpr mem
          rw [count_erase_self, if_pos rfl]
          omega
        · rw [count_erase_of_ne (Ne.symm same), if_neg same]
    · cases run
  | run t => exact h.run consistent run

end BadgerOS.BlockAlloc
