import Mathlib

/-!
# Runs of blocks

`iter_blocks` of ext2 gathers the blocks of a range of a file into runs that are
contiguous on the disk, or have no blocks, and calls back for each.
-/

namespace BadgerOS.BlockRuns

/-- What the callback is called with. -/
structure Call where
  file : Nat
  disk : Option Nat
  length : Nat
  deriving DecidableEq, Repr

/-- The arguments of `iter_blocks`, and what `get_block` gives. -/
structure Request where
  blockSizeExp : Nat
  offset : Nat
  length : Nat
  deSparse : Bool
  getBlock : Nat → Option Nat

structure Iter where
  start : Option Nat
  prev : Option Nat
  calls : List Call

namespace Request

variable (r : Request)

def blockSize : Nat := 2 ^ r.blockSizeExp

def wrapper (start stop : Nat) (prev : Option Nat) : Option Call :=
  let startblk := start <<< r.blockSizeExp
  let endblk := stop <<< r.blockSizeExp
  let first := max startblk r.offset
  let last := min endblk (r.offset + r.length)
  match prev with
  | none => some ⟨first, none, last - first⟩
  | some x =>
    -- the subtraction underflows
    if x < stop - start - 1 then none
    else some ⟨first, some ((x - (stop - start - 1)) <<< r.blockSizeExp + (first - startblk)),
      last - first⟩

/-- One turn of the loop. -/
def turn (s : Iter) (fileblk : Nat) : Option Iter :=
  let block := r.getBlock fileblk
  -- `debug_assert!(block.is_some())`
  if r.deSparse ∧ block = none then none
  else match s.start with
    | none => some ⟨some fileblk, block, s.calls⟩
    | some y =>
      if s.prev.map (· + 1) ≠ block then do
        let call ← r.wrapper y fileblk s.prev
        some ⟨some fileblk, block, s.calls ++ [call]⟩
      else some { s with prev := block }

def fileblkStart : Nat := r.offset >>> r.blockSizeExp % 2 ^ 32

def fileblkEnd : Nat := (r.offset + r.length + (r.blockSize - 1)) / r.blockSize % 2 ^ 32

/-- The calls of the callback, and `none` for a panic. -/
def iterBlocks : Option (List Call) :=
  if r.length = 0 then some []
  else do
    let s ← (List.range' r.fileblkStart (r.fileblkEnd - r.fileblkStart)).foldlM r.turn
      ⟨none, none, []⟩
    match s.start with
    | some y => do
      let call ← r.wrapper y r.fileblkEnd s.prev
      some (s.calls ++ [call])
    | none => some s.calls

/-- Block numbers are neither 0 nor the last, and there are no holes to be filled. -/
structure Valid : Prop where
  below : r.offset + r.length < 2 ^ 32 * r.blockSize
  block {b x : Nat} : r.getBlock b = some x → 0 < x ∧ x < 2 ^ 32 - 1
  filled : r.deSparse = true → ∀ b, r.getBlock b ≠ none

/-- Each byte of the call is where its block is, or has none. -/
def Located (c : Call) : Prop :=
  ∀ f, c.file ≤ f → f < c.file + c.length → match c.disk with
    | none => r.getBlock (f / r.blockSize) = none
    | some disk => ∃ x, r.getBlock (f / r.blockSize) = some x ∧
      disk + (f - c.file) = x <<< r.blockSizeExp + f % r.blockSize

end Request

/-- The calls are for ranges of the file one after another. -/
def Covers : List Call → Nat → Nat → Prop
  | [], lo, hi => lo = hi
  | c :: rest, lo, hi => c.file = lo ∧ 0 < c.length ∧ Covers rest (lo + c.length) hi

def Request.Tiled (r : Request) : Prop :=
  ∃ calls, r.iterBlocks = some calls ∧ Covers calls r.offset (r.offset + r.length) ∧
    ∀ c ∈ calls, r.Located c

theorem Covers.append {calls : List Call} {c : Call} {lo : Nat} (h : Covers calls lo c.file)
    (some : 0 < c.length) : Covers (calls ++ [c]) lo (c.file + c.length) := by
  induction calls generalizing lo with
  | nil =>
    cases h
    exact ⟨rfl, some, rfl⟩
  | cons d rest ih => exact ⟨h.1, h.2.1, ih h.2.2⟩

namespace Request

variable {r : Request} {y m : Nat} {prev : Option Nat} {s : Iter}

/-- The blocks of a run, up to the last one. -/
structure Run (r : Request) (y m : Nat) (prev : Option Nat) : Prop where
  nonempty : y < m
  blocks {j : Nat} : y ≤ j → j < m → r.getBlock j = prev.map (· - (m - 1 - j))
  enough {x : Nat} : prev = some x → m - 1 - y < x

theorem Run.step (run : Run r y m prev) (next : prev.map (· + 1) = r.getBlock m) :
    Run r y (m + 1) (r.getBlock m) := by
  rw [← next]
  constructor
  case nonempty => exact Nat.lt_succ_of_lt run.nonempty
  case blocks =>
    intro j low high
    rcases Nat.lt_succ_iff_lt_or_eq.mp high with less | rfl
    · rw [run.blocks low less, Option.map_map]
      congr 1
      funext x
      dsimp only [Function.comp]
      omega
    · simp [← next, Function.comp_def]
  case enough =>
    intro x eq
    obtain ⟨x', same, rfl⟩ := Option.map_eq_some_iff.mp eq
    have := run.enough same
    omega

theorem shl_eq (n : Nat) : n <<< r.blockSizeExp = n * r.blockSize := Nat.shiftLeft_eq ..

theorem Run.wrapper (run : Run r y m prev) (low : y * r.blockSize < r.offset + r.length)
    (high : r.offset < m * r.blockSize) (length : r.length ≠ 0) : ∃ c,
    r.wrapper y m prev = some c ∧
      c.file = max (y * r.blockSize) r.offset ∧ 0 < c.length ∧
      c.file + c.length = min (m * r.blockSize) (r.offset + r.length) ∧ r.Located c := by
  have pos : 0 < r.blockSize := Nat.two_pow_pos _
  have less := Nat.mul_lt_mul_of_pos_right run.nonempty pos
  have inside {f : Nat} (first : y * r.blockSize ≤ f) (last : f < m * r.blockSize) :
      r.getBlock (f / r.blockSize) = prev.map (· - (m - 1 - f / r.blockSize)) :=
    run.blocks ((Nat.le_div_iff_mul_le pos).mpr first) ((Nat.div_lt_iff_lt_mul pos).mpr last)
  have first_lt : max (y * r.blockSize) r.offset < min (m * r.blockSize) (r.offset + r.length) := by
    omega
  simp only [Request.wrapper, shl_eq]
  cases prev with
  | none =>
    refine ⟨_, rfl, rfl, by dsimp only; omega, by dsimp only; omega, fun f first last => ?_⟩
    dsimp only at first last ⊢
    exact inside (by omega) (by omega)
  | some x =>
    have enough := run.enough rfl
    dsimp only
    rw [if_neg (by omega)]
    refine ⟨_, rfl, rfl, by dsimp only; omega, by dsimp only; omega, fun f first last => ?_⟩
    dsimp only at first last ⊢
    have here := inside (by omega : y * r.blockSize ≤ f) (by omega)
    refine ⟨_, here, ?_⟩
    dsimp only
    -- the block is `d` blocks behind the first of the run
    obtain ⟨d, block⟩ :=
      Nat.exists_eq_add_of_le ((Nat.le_div_iff_mul_le pos).mpr (by omega : y * r.blockSize ≤ f))
    have before := (Nat.div_lt_iff_lt_mul pos).mpr (by omega : f < m * r.blockSize)
    have split := Nat.div_add_mod f r.blockSize
    rw [shl_eq, show x - (m - 1 - f / r.blockSize) = x - (m - y - 1) + d by omega, Nat.add_mul]
    rw [block, Nat.mul_comm, Nat.add_mul] at split
    omega

/-- What the loop has gathered before block `m`. -/
structure Gathered (r : Request) (m : Nat) (s : Iter) (y : Nat) : Prop where
  start : s.start = some y
  low : r.fileblkStart ≤ y
  run : Run r y m s.prev
  covers : Covers s.calls r.offset (max (y * r.blockSize) r.offset)
  located : ∀ c ∈ s.calls, r.Located c

theorem run_one (valid : r.Valid) (b : Nat) : Run r b (b + 1) (r.getBlock b) := by
  constructor
  case nonempty => exact Nat.lt_succ_self b
  case blocks =>
    intro j low high
    cases Nat.le_antisymm low (Nat.le_of_lt_succ high)
    simp
  case enough =>
    intro x eq
    have := valid.block eq
    omega

/-- The run is ended before block `m`. -/
theorem Gathered.close (h : Gathered r m s y) (length : r.length ≠ 0)
    (low : r.offset < (r.fileblkStart + 1) * r.blockSize)
    (more : (m - 1) * r.blockSize < r.offset + r.length) :
    ∃ c, r.wrapper y m s.prev = some c ∧ (∀ d ∈ s.calls ++ [c], r.Located d) ∧
      Covers (s.calls ++ [c]) r.offset (min (m * r.blockSize) (r.offset + r.length)) := by
  have start_le :=
    Nat.mul_le_mul_right r.blockSize (Nat.succ_le_of_lt (h.low.trans_lt h.run.nonempty))
  have y_le := Nat.mul_le_mul_right r.blockSize (Nat.le_sub_one_of_lt h.run.nonempty)
  obtain ⟨c, called, file, some, stop, located⟩ :=
    h.run.wrapper (y_le.trans_lt more) (low.trans_le start_le) length
  refine ⟨c, called, ?_, stop ▸ Covers.append (file ▸ h.covers) some⟩
  intro d mem
  rcases List.mem_append.mp mem with mem | mem
  · exact h.located d mem
  · exact List.mem_singleton.mp mem ▸ located

theorem Valid.asserted (valid : r.Valid) (b : Nat) :
    ¬ (r.deSparse = true ∧ r.getBlock b = none) :=
  fun h => valid.filled h.1 b h.2

theorem Gathered.turn (valid : r.Valid) (h : Gathered r m s y) (length : r.length ≠ 0)
    (low : r.offset < (r.fileblkStart + 1) * r.blockSize)
    (more : m * r.blockSize < r.offset + r.length) :
    ∃ s' y', r.turn s m = some s' ∧ Gathered r (m + 1) s' y' := by
  simp only [Request.turn, if_neg (valid.asserted m), h.start]
  split
  · have start_le :=
      Nat.mul_le_mul_right r.blockSize (Nat.succ_le_of_lt (h.low.trans_lt h.run.nonempty))
    have less := Nat.mul_le_mul_right r.blockSize (Nat.sub_le m 1)
    obtain ⟨c, called, located, covers⟩ := h.close length low (less.trans_lt more)
    rw [called]
    refine ⟨_, m, rfl, rfl, h.low.trans h.run.nonempty.le, run_one valid m, ?_, located⟩
    rwa [Nat.min_eq_left more.le, ← Nat.max_eq_left (low.le.trans start_le)] at covers
  · rename_i next
    exact ⟨_, y, rfl, rfl, h.low, h.run.step (not_not.mp next), h.covers, h.located⟩

theorem gathered (valid : r.Valid) (length : r.length ≠ 0)
    (first : r.fileblkStart * r.blockSize ≤ r.offset)
    (low : r.offset < (r.fileblkStart + 1) * r.blockSize) (n : Nat)
    (more : (r.fileblkStart + n) * r.blockSize < r.offset + r.length) :
    ∃ s y, (List.range' r.fileblkStart (n + 1)).foldlM r.turn ⟨none, none, []⟩ = some s ∧
      Gathered r (r.fileblkStart + n + 1) s y := by
  induction n with
  | zero =>
    refine ⟨⟨some r.fileblkStart, r.getBlock r.fileblkStart, []⟩, _, ?_, rfl, le_rfl,
      run_one valid _, (max_eq_right first).symm, by simp⟩
    simp [Request.turn, if_neg (valid.asserted _)]
  | succ n ih =>
    have less := Nat.mul_le_mul_right r.blockSize (Nat.le_succ (r.fileblkStart + n))
    obtain ⟨s, y, run, h⟩ := ih (less.trans_lt more)
    obtain ⟨s', y', turned, h'⟩ := h.turn valid length low more
    rw [List.range'_1_concat, List.foldlM_append, run]
    exact ⟨s', y', by simpa [Nat.add_assoc] using turned, h'⟩

/-- The calls tile the request exactly if its last block is not block `2 ^ 32 - 1`. -/
theorem tiled_iff (valid : r.Valid) :
    r.Tiled ↔ r.length = 0 ∨ r.offset + r.length ≤ (2 ^ 32 - 1) * r.blockSize := by
  have pos : 0 < r.blockSize := Nat.two_pow_pos _
  have below := valid.below
  by_cases length : r.length = 0
  · simp [Tiled, iterBlocks, length, Covers]
  have start : r.fileblkStart = r.offset / r.blockSize := by
    rw [fileblkStart, Nat.shiftRight_eq_div_pow]
    exact Nat.mod_eq_of_lt ((Nat.div_lt_iff_lt_mul pos).mpr (by omega))
  have first : r.fileblkStart * r.blockSize ≤ r.offset := start ▸ Nat.div_mul_le_self ..
  have low : r.offset < (r.fileblkStart + 1) * r.blockSize := by
    rw [start, Nat.mul_comm]
    exact Nat.lt_mul_div_succ _ pos
  generalize eq : (r.offset + r.length + (r.blockSize - 1)) / r.blockSize = stop
  have split := Nat.div_add_mod (r.offset + r.length + (r.blockSize - 1)) r.blockSize
  have part := Nat.mod_lt (r.offset + r.length + (r.blockSize - 1)) pos
  rw [eq, Nat.mul_comm] at split
  have stop_eq : r.fileblkEnd = stop % 2 ^ 32 := congrArg (· % 2 ^ 32) eq
  constructor
  · rintro ⟨calls, ran, covers, -⟩
    by_contra far
    have last : stop = 2 ^ 32 := by
      apply Nat.le_antisymm
      · exact Nat.le_of_lt_succ
          (Nat.lt_of_mul_lt_mul_right (by omega : stop * r.blockSize < (2 ^ 32 + 1) * r.blockSize))
      · exact Nat.lt_of_mul_lt_mul_right
          (by omega : (2 ^ 32 - 1) * r.blockSize < stop * r.blockSize)
    rw [last] at stop_eq
    simp [iterBlocks, length, stop_eq] at ran
    cases ran
    exact absurd covers (by simpa [Covers] using length)
  · intro near
    have near := near.resolve_left length
    have less : stop < 2 ^ 32 :=
      Nat.lt_of_mul_lt_mul_right (by omega : stop * r.blockSize < 2 ^ 32 * r.blockSize)
    rw [Nat.mod_eq_of_lt less] at stop_eq
    have some : r.fileblkStart < stop :=
      Nat.lt_of_mul_lt_mul_right (by omega : _ < stop * r.blockSize)
    obtain ⟨n, rfl⟩ := Nat.exists_eq_add_of_lt some
    rw [Nat.add_mul _ 1] at split
    obtain ⟨s, y, ran, h⟩ := gathered valid length first low n (by omega)
    obtain ⟨c, called, located, covers⟩ :=
      h.close length low (by rw [Nat.add_sub_cancel]; omega)
    rw [Nat.min_eq_right (by rw [Nat.add_mul _ 1]; omega)] at covers
    refine ⟨s.calls ++ [c], ?_, covers, located⟩
    have turns : r.fileblkStart + n + 1 - r.fileblkStart = n + 1 := by omega
    rw [iterBlocks, if_neg length, stop_eq, turns, ran]
    simp [h.start, called]

/-- A byte of the last block. -/
def lastByte : Request := ⟨10, (2 ^ 32 - 1) * 1024, 1, false, fun _ => none⟩

theorem not_tiled : lastByte.Valid ∧ ¬ lastByte.Tiled := by
  refine ⟨⟨by decide, fun found => ?_, fun fill => absurd fill (by decide)⟩, ?_⟩
  · cases found
  rintro ⟨calls, eq, covers, -⟩
  have none : lastByte.iterBlocks = some [] := by decide +kernel
  cases none.symm.trans eq
  cases covers

/-- The second half of a block and the first half of the next one, which is elsewhere. -/
def twoHalves : Request := ⟨10, 512, 1024, false, fun b => some (if b = 0 then 7 else 3)⟩

theorem tiled_two_halves : twoHalves.Tiled := by
  refine (tiled_iff ⟨by decide, ?_, fun fill => absurd fill (by decide)⟩).mpr (.inr (by decide))
  rintro b x ⟨⟩
  split <;> decide

end Request

end BadgerOS.BlockRuns
