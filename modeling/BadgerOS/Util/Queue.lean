import BadgerOS.Util.Delivery

/-!
# A fifo between calls

When one call of `Fifo::read` or `Fifo::write` runs at a time, the reserved and the
committed indices are the same, and the fifo is a queue of at most `cap - 1` bytes.
-/

namespace BadgerOS.Fifo

open List

structure Ring where
  data : Nat → Byte
  rx : Nat
  tx : Nat

namespace Ring

def new : Ring := ⟨fun _ => 0, 0, 0⟩

def readAvl (cap : Nat) (r : Ring) : Nat := wrappingAdd (wrappingSub r.tx r.rx) cap % cap

def writeAvl (cap : Nat) (r : Ring) : Nat :=
  wrappingSub (wrappingAdd (wrappingSub r.rx r.tx) cap) 1 % cap

/-- The bytes that a read copies, and the fifo after it. -/
def read (cap : Nat) (r : Ring) (len : Nat) : List Byte × Ring :=
  let n := recvCap cap r.rx r.tx len
  if n = 0 then ([], r)
  else
    let endOff := advance cap r.rx n
    (if endOff > r.rx then slice r.data r.rx endOff else slice r.data r.rx cap ++ slice r.data 0
      endOff, { r with rx := endOff })

/-- How many bytes a write accepts, and the fifo after it. Of these bytes the first `copied`
are there, which are all unless the user memory faults. -/
def write (cap : Nat) (r : Ring) (wdata : List Byte) (copied : Nat) : Nat × Ring :=
  let n := sendCap cap r.rx r.tx wdata.length
  if n = 0 then (0, r)
  else
    let endOff := advance cap r.tx n
    let bytes := wdata.take (min n copied)
    (n, { r with
      tx := endOff
      data :=
        if endOff > r.tx then copyIn r.data r.tx bytes
        else copyIn (copyIn r.data r.tx (bytes.take (cap - r.tx))) 0 (bytes.drop (cap - r.tx)) })

/-- The fifo holds the bytes of a stream from a position on. -/
structure Holds (cap : Nat) (r : Ring) (stream : List Byte) (pos : Nat) : Prop where
  rx : r.rx = pos % cap
  tx : r.tx = stream.length % cap
  low : pos ≤ stream.length
  high : stream.length ≤ pos + (cap - 1)
  cells : ∀ p, pos ≤ p → p < stream.length → stream[p]? = some (r.data (p % cap))

/-- What is in the fifo. -/
def Contents (cap : Nat) (r : Ring) (bytes : List Byte) : Prop :=
  ∃ stream pos, Holds cap r stream pos ∧ bytes = stream.drop pos

section

variable {cap : Nat} {r : Ring} {stream wdata bytes : List Byte} {pos len : Nat}

theorem Holds.recvCap (holds : Holds cap r stream pos) (positive : 0 < cap) (small : cap < 2 ^ 63)
    (len : Nat) : recvCap cap r.rx r.tx len = min (stream.length - pos) len := by
  have high := holds.high
  rw [holds.rx, holds.tx]
  exact recvCap_eq small holds.low (by omega)

theorem Holds.sendCap (holds : Holds cap r stream pos) (positive : 0 < cap) (small : cap < 2 ^ 63)
    (len : Nat) : sendCap cap r.rx r.tx len = min (pos + (cap - 1) - stream.length) len := by
  rw [holds.rx, holds.tx]
  exact sendCap_eq small holds.low holds.high positive

/-- The position at which the ring wraps around. -/
theorem mod_wrap (positive : 0 < cap) (pos : Nat) : (pos + (cap - pos % cap)) % cap = 0 := by
  have small := Nat.mod_lt pos positive
  rw [Nat.add_mod, Nat.add_mod_mod, show pos % cap + (cap - pos % cap) = cap by omega, Nat.mod_self]

theorem Holds.slices (holds : Holds cap r stream pos) (small : cap < 2 ^ 63) {n : Nat}
    (some_byte : 0 < n) (here : pos + n ≤ stream.length) :
    (if advance cap r.rx n > r.rx then slice r.data r.rx (advance cap r.rx n)
      else slice r.data r.rx cap ++ slice r.data 0 (advance cap r.rx n)) =
        (stream.drop pos).take n := by
  have high := holds.high
  have less : n < cap := by omega
  have positive : 0 < cap := by omega
  have inside := Nat.mod_lt pos positive
  have filled (q m : Nat) (low : pos ≤ q) (high : q + m ≤ pos + n) p (from_ : q ≤ p)
    (before : p < q + m) :
      stream[p]? = some (r.data (p % cap)) :=
    holds.cells p (by omega) (by omega)
  rw [holds.rx]
  split
  case isTrue straight =>
    rw [advance_gt_iff small less some_byte] at straight
    rw [advance_eq small less, Ring.mod_add_of_lt straight]
    exact slice_filled (by omega) (filled pos n (by omega) (by omega))
  case isFalse wraps =>
    rw [advance_gt_iff small less some_byte] at wraps
    have first := slice_filled (by omega) (filled pos (cap - pos % cap) (by omega) (by omega))
    have second := slice_filled (q := pos + (cap - pos % cap)) (m := n - (cap - pos % cap))
      (by rw [mod_wrap positive]; omega) (filled _ _ (by omega) (by omega))
    rw [mod_wrap positive, Nat.zero_add] at second
    rw [Nat.add_sub_cancel' (by omega)] at first
    have rest : advance cap (pos % cap) n = n - (cap - pos % cap) := by
      rw [advance_eq small less, Ring.mod_add_of_ge (by omega) less]
      omega
    rw [rest, first, second, ← part_split, Nat.add_sub_cancel' (by omega)]

theorem Holds.read (holds : Holds cap r stream pos) (positive : 0 < cap) (small : cap < 2 ^ 63)
    (len : Nat) : (r.read cap len).1 = (stream.drop pos).take len ∧
      Holds cap (r.read cap len).2 stream (pos + min (stream.length - pos) len) := by
  have count := holds.recvCap positive small len
  have high := holds.high
  have whole : (stream.drop pos).take len = (stream.drop pos).take
      (min (stream.length - pos) len) := by
    rw [take_eq_take_min, length_drop, Nat.min_comm]
  have most : min (stream.length - pos) len ≤ stream.length - pos := Nat.min_le_left ..
  rw [whole]
  unfold Ring.read
  generalize min (stream.length - pos) len = n at *
  simp only [count]
  split
  case isTrue none =>
    subst none
    exact ⟨by simp, holds⟩
  case isFalse some_byte =>
    refine ⟨holds.slices small (by omega) (by omega), ?_, holds.tx, by omega, by omega, ?_⟩
    · simp only [holds.rx, advance_eq small (by omega : n < cap)]
    · intro p from_ before
      exact holds.cells p (by omega) before

/-- Bytes that are copied to the cells behind the stream, and what was there stays. -/
theorem cells_copied {data : Nat → Byte} {stream' : List Byte} {q m : Nat}
    (straight : q % cap + m ≤ cap) (window : pos ≤ q ∧ q + m ≤ pos + cap)
    (size : q + m ≤ stream'.length)
    (cells : ∀ p, pos ≤ p → p < q → stream'[p]? = some (data (p % cap))) :
    ∀ p, pos ≤ p → p < q + m →
      stream'[p]? = some (copyIn data (q % cap) ((stream'.drop q).take m) (p % cap)) := by
  intro p from_ before
  by_cases old : p < q
  · rw [copyIn_kept pos straight window ⟨from_, by omega⟩ (.inl old)]
    exact cells p from_ old
  · exact copyIn_filled straight size p (by omega) before

theorem Holds.copies (holds : Holds cap r stream pos) (small : cap < 2 ^ 63) {bytes : List Byte}
    (some_byte : 0 < bytes.length) (room : stream.length + bytes.length ≤ pos + (cap - 1)) :
    ∀ p, pos ≤ p → p < (stream ++ bytes).length → (stream ++ bytes)[p]? = some
      ((if advance cap r.tx bytes.length > r.tx then copyIn r.data r.tx bytes
        else copyIn (copyIn r.data r.tx (bytes.take (cap - r.tx))) 0 (bytes.drop (cap - r.tx)))
          (p % cap)) := by
  have low := holds.low
  have positive : 0 < cap := by omega
  have inside := Nat.mod_lt stream.length positive
  have old (p : Nat) (from_ : pos ≤ p) (before : p < stream.length) :
      (stream ++ bytes)[p]? = some (r.data (p % cap)) := by
    rw [List.getElem?_append_left before]
    exact holds.cells p from_ before
  have new : (stream ++ bytes).drop stream.length = bytes := drop_left
  have whole : (stream ++ bytes).length = stream.length + bytes.length := length_append
  rw [holds.tx]
  split
  case isTrue straight =>
    rw [advance_gt_iff small (by omega) some_byte] at straight
    have copied := cells_copied (m := bytes.length) (by omega) ⟨low, by omega⟩ (by omega) old
    rw [new, take_length] at copied
    intro p from_ before
    exact copied p from_ (by omega)
  case isFalse wraps =>
    rw [advance_gt_iff small (by omega) some_byte] at wraps
    have first := cells_copied (m := cap - stream.length % cap) (by omega) ⟨low, by omega⟩
      (by omega) old
    have second := cells_copied (m := bytes.length - (cap - stream.length % cap))
      (by rw [mod_wrap positive]; omega) ⟨by omega, by omega⟩ (by omega) first
    have rest : (bytes.drop (cap - stream.length % cap)).take
      (bytes.length - (cap - stream.length % cap)) =
        bytes.drop (cap - stream.length % cap) := by
      rw [← length_drop, take_length]
    rw [mod_wrap positive, ← drop_drop, new, rest] at second
    intro p from_ before
    exact second p from_ (by omega)

theorem Holds.write (holds : Holds cap r stream pos) (positive : 0 < cap) (small : cap < 2 ^ 63)
    (wdata : List Byte) :
    (r.write cap wdata wdata.length).1 = min (pos + (cap - 1) - stream.length) wdata.length ∧
      Holds cap (r.write cap wdata wdata.length).2
        (stream ++ wdata.take (r.write cap wdata wdata.length).1) pos := by
  let room := pos + (cap - 1) - stream.length
  have count := holds.sendCap positive small wdata.length
  have low := holds.low
  have most : min room wdata.length ≤ pos + (cap - 1) - stream.length ∧
    min room wdata.length ≤ wdata.length := ⟨Nat.min_le_left .., Nat.min_le_right ..⟩
  unfold Ring.write
  generalize min room wdata.length = n at *
  simp only [count]
  split
  case isTrue none =>
    subst none
    exact ⟨rfl, by simpa using holds⟩
  case isFalse some_byte =>
    have length : (wdata.take n).length = n := by simp [most.2]
    have copies := holds.copies small (by omega : 0 < (wdata.take n).length) (by omega)
    rw [length] at copies
    rw [Nat.min_eq_left most.2]
    refine ⟨rfl, holds.rx, ?_, by simp; omega, by simp; omega, copies⟩
    rw [length_append, length, holds.tx]
    exact advance_eq small (by omega)

/-! ### The queue -/

theorem Contents.new (cap : Nat) : Contents cap Ring.new [] :=
  ⟨[], 0, ⟨by simp [Ring.new], by simp [Ring.new], Nat.le_refl 0, Nat.zero_le _, nofun⟩,
    rfl⟩

section

variable (contents : Contents cap r bytes) (positive : 0 < cap) (small : cap < 2 ^ 63)
include contents positive small

theorem Contents.readAvl : r.readAvl cap = bytes.length := by
  obtain ⟨stream, pos, holds, rfl⟩ := contents
  have count : min (r.readAvl cap) (r.readAvl cap + stream.length) = _ :=
    holds.recvCap positive small _
  rw [length_drop]
  omega

theorem Contents.read (len : Nat) :
    (r.read cap len).1 = bytes.take len ∧ Contents cap (r.read cap len).2 (bytes.drop len) := by
  obtain ⟨stream, pos, holds, rfl⟩ := contents
  obtain ⟨copied, after⟩ := holds.read positive small len
  refine ⟨copied, stream, _, after, ?_⟩
  rw [drop_drop]
  rcases Nat.le_total len (stream.length - pos) with le | le
  · rw [Nat.min_eq_right le]
  · rw [Nat.min_eq_left le, drop_of_length_le (by omega), drop_of_length_le (by omega)]

theorem Contents.write (wdata : List Byte) :
    (r.write cap wdata wdata.length).1 = min (cap - 1 - bytes.length) wdata.length ∧
      Contents cap (r.write cap wdata wdata.length).2
        (bytes ++ wdata.take (r.write cap wdata wdata.length).1) := by
  obtain ⟨stream, pos, holds, rfl⟩ := contents
  obtain ⟨accepted, after⟩ := holds.write positive small wdata
  have low := holds.low
  refine ⟨?_, _, pos, after, ?_⟩
  · have room : pos + (cap - 1) - stream.length = cap - 1 - (stream.drop pos).length := by
      rw [length_drop]
      omega
    rw [accepted, room]
  · rw [drop_append_of_le_length low]

end

end

end Ring

end BadgerOS.Fifo
