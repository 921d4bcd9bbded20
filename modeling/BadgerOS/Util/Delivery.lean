import BadgerOS.Lib.Ring
import BadgerOS.Util.Fifo

/-!
# What the fifo delivers

As long as no reservation is made with an index that the other side has left
behind, the reads receive what the writes sent, each byte once and in order.
-/

namespace BadgerOS.Fifo

open Interleaving Function List State Ring Nat

/-- A read does not reserve beyond the bytes that were committed when it loaded
`write_commit`. -/
def ReadPc.Timely (s : State) (seen : Nat) : ReadPc → Prop
  | .reserve rx _ => s.readResv = rx → bytesOf s.reads ≤ seen
  | _ => True

/-- A write does not reserve beyond the space that was free when it loaded
`read_commit`. -/
def WritePc.Timely (cap : Nat) (s : State) (seen : Nat) : WritePc → Prop
  | .reserve _ tx => s.writeResv = tx → s.stream.length ≤ seen + (cap - 1)
  | _ => True

def Thread.Timely (cap : Nat) (s : State) : Thread → Prop
  | .reader r => r.pc.Timely s r.seen
  | .writer w => w.pc.Timely cap s w.seen

/-- No index of the other side has been left behind when it is used for a
reservation, and user memory does not fault. -/
def Timely (cap : Nat) (s : State) : Event → Prop
  | .run i => (s.threads i).Timely cap s
  | .fault .. => False

instance (s : State) (seen : Nat) : (pc : ReadPc) → Decidable (pc.Timely s seen)
  | .reserve rx _ => inferInstanceAs (Decidable (s.readResv = rx → bytesOf s.reads ≤ seen))
  | .loadResv | .loadCommit _ | .copyFirst .. | .copySecond .. | .commit .. | .done _ =>
    .isTrue trivial

instance (cap : Nat) (s : State) (seen : Nat) : (pc : WritePc) → Decidable (pc.Timely cap s seen)
  | .reserve _ tx =>
    inferInstanceAs (Decidable (s.writeResv = tx → s.stream.length ≤ seen + (cap - 1)))
  | .loadResv _ | .loadCommit | .copyFirst .. | .copySecond .. | .commit .. | .done _ =>
    .isTrue trivial

instance (cap : Nat) (s : State) : (t : Thread) → Decidable (t.Timely cap s)
  | .reader r => inferInstanceAs (Decidable (r.pc.Timely s r.seen))
  | .writer w => inferInstanceAs (Decidable (w.pc.Timely cap s w.seen))

instance (cap : Nat) (s : State) : (event : Event) → Decidable (Timely cap s event)
  | .run i => inferInstanceAs (Decidable ((s.threads i).Timely cap s))
  | .fault .. => .isFalse id

/-- The cells of the ring that a read has reserved and not released: the first, and
how many. -/
def Thread.reading : Thread → Option (Nat × Nat)
  | .reader r =>
    match r.pc with
    | .copyFirst startOff n | .copySecond startOff n | .commit startOff n _ => some (startOff, n)
    | _ => none
  | .writer _ => none

/-- The cells of the ring that a write has reserved and not committed. -/
def Thread.writing : Thread → Option (Nat × Nat)
  | .reader _ => none
  | .writer w =>
    match w.pc with
    | .copyFirst startOff n | .copySecond startOff n | .commit startOff n _ => some (startOff, n)
    | _ => none

/-- How many bytes have been reserved by the calls of the kind before. -/
def Thread.pos : Thread → Nat
  | .reader r => r.pos
  | .writer w => w.pos

/-- What a read has copied. -/
def Thread.rdata : Thread → List Byte
  | .reader r => r.rdata
  | .writer _ => []

def Thread.wdata : Thread → List Byte
  | .reader _ => []
  | .writer w => w.wdata

/-- A read that has copied all that it reserved. -/
def Thread.hasCopied : Thread → Bool
  | .reader r =>
    match r.pc with
    | .commit _ _ efault => !efault
    | .done result => result.isSome
    | _ => false
  | .writer _ => false

/-- What the writes copied in, in the order of their reservations. -/
def State.written (s : State) : List Byte :=
  (s.writes.map fun (i, n) => (s.threads i).wdata.take n).flatten

/-- What the first `k` reads copied, in the order of their reservations. -/
def State.delivered (s : State) (k : Nat) : List Byte :=
  ((s.reads.take k).map fun (i, _) => (s.threads i).rdata).flatten

structure Delivers (cap : Nat) (s : State) : Prop where
  /-- What reads have reserved is committed and not released. -/
  inside : ∀ {i startOff n}, (s.threads i).reading = some (startOff, n) → ∀ k < n,
    ∃ p, s.released ≤ p ∧ p < s.committed ∧ (startOff + k) % cap = p % cap
  /-- No two reads have reserved the same cell. -/
  disjoint : ∀ {i j startOff startOff' n n'}, i ≠ j → (s.threads i).reading = some
    (startOff, n) → (s.threads j).reading = some (startOff', n') → ∀ k < n, ∀ k' < n',
    (startOff + k) % cap ≠ (startOff' + k') % cap
  inOrder : ∀ k, (∀ read ∈ s.reads.take k, (s.threads read.1).hasCopied = true) →
    s.delivered k <+: s.written.take s.committed
  /-- A byte that is committed and not released is in its cell, and no write has reserved it. -/
  kept : ∀ p, s.released ≤ p → p < s.committed → s.written[p]? = some (s.data (p % cap)) ∧
    ∀ {i startOff n}, (s.threads i).writing = some (startOff, n) →
      ∀ k < n, (startOff + k) % cap ≠ p % cap

/-- The cells of `n` positions hold what was written. -/
def Filled (cap : Nat) (s : State) (pos n : Nat) : Prop :=
  ∀ p, pos ≤ p → p < pos + n → s.stream[p]? = some (s.data (p % cap))

/-- What is reserved by a read. -/
structure Reads (cap : Nat) (s : State) (pos startOff n : Nat) : Prop where
  start : startOff = pos % cap
  size : 0 < n
  low : s.released ≤ pos
  high : pos + n ≤ bytesOf s.reads

/-- What is reserved by a write. -/
structure Writes (cap : Nat) (s : State) (pos startOff n : Nat) (wdata : List Byte) : Prop where
  start : startOff = pos % cap
  size : 0 < n
  low : s.committed ≤ pos
  high : pos + n ≤ s.stream.length
  data : (s.stream.drop pos).take n = wdata.take n

def ReaderOk (cap : Nat) (s : State) (r : Reader) : Prop :=
  match r.pc with
  | .loadResv | .loadCommit _ => r.rdata = []
  | .reserve _ tx => r.rdata = [] ∧ tx = r.seen % cap ∧ r.seen ≤ s.committed
  | .copyFirst startOff n => Reads cap s r.pos startOff n
  | .copySecond startOff n => Reads cap s r.pos startOff n ∧ cap ≤ startOff + n ∧
      r.rdata = (s.stream.drop r.pos).take (cap - startOff)
  | .commit startOff n efault => Reads cap s r.pos startOff n ∧ efault = false ∧
      r.rdata = (s.stream.drop r.pos).take n
  | .done result => ∃ n, result = some n ∧ r.pos + n ≤ bytesOf s.reads ∧
      r.rdata = (s.stream.drop r.pos).take n

def WriterOk (cap : Nat) (s : State) (w : Writer) : Prop :=
  match w.pc with
  | .loadCommit => True
  | .loadResv rx | .reserve rx _ => rx = w.seen % cap ∧ w.seen ≤ s.released
  | .copyFirst startOff n => Writes cap s w.pos startOff n w.wdata
  | .copySecond startOff n => Writes cap s w.pos startOff n w.wdata ∧ cap ≤ startOff + n ∧
      Filled cap s w.pos (cap - startOff)
  | .commit startOff n efault => Writes cap s w.pos startOff n w.wdata ∧ efault = false ∧
      Filled cap s w.pos n
  | .done _ => True

def ThreadOk (cap : Nat) (s : State) : Thread → Prop
  | .reader r => ReaderOk cap s r
  | .writer w => WriterOk cap s w

/-- The size of a read that has reserved. -/
def Thread.reserved : Thread → Option Nat
  | .reader r =>
    match r.pc with
    | .copyFirst _ n | .copySecond _ n | .commit _ n _ => some n
    | .done result => result
    | _ => none
  | .writer _ => none

/-- The indices and the buffer. -/
structure Shared (cap : Nat) (s : State) : Prop where
  readResv : s.readResv = bytesOf s.reads % cap
  readCommit : s.readCommit = s.released % cap
  writeResv : s.writeResv = s.stream.length % cap
  writeCommit : s.writeCommit = s.committed % cap
  order : s.released ≤ bytesOf s.reads ∧ bytesOf s.reads ≤ s.committed ∧
    s.committed ≤ s.stream.length ∧ s.stream.length ≤ s.released + (cap - 1)
  filled : Filled cap s s.released (s.committed - s.released)

structure Inv (cap : Nat) (s : State) : Prop extends Shared cap s where
  threads : ∀ i, ThreadOk cap s (s.threads i)
  readers : ∀ i j startOff startOff' n n', i ≠ j →
    (s.threads i).reading = some (startOff, n) → (s.threads j).reading = some (startOff', n') →
    (s.threads i).pos + n ≤ (s.threads j).pos ∨ (s.threads j).pos + n' ≤ (s.threads i).pos
  writers : ∀ i j startOff startOff' n n', i ≠ j →
    (s.threads i).writing = some (startOff, n) → (s.threads j).writing = some (startOff', n') →
    (s.threads i).pos + n ≤ (s.threads j).pos ∨ (s.threads j).pos + n' ≤ (s.threads i).pos
  stream : s.stream = s.written
  log : ∀ k i n, s.reads[k]? = some (i, n) → (s.threads i).reserved = some n ∧
    (s.threads i).pos = bytesOf (s.reads.take k)

variable {reserved seen len start k p pos rx tx : Nat} {bytes wdata : List Byte}
  {f : Thread → Option (Nat × Nat)} {efault : Bool}

section Arithmetic

variable {cap n : Nat}

section

variable (hcap : cap < 2 ^ 63)
include hcap

/-- The count that a read reserves, from positions. -/
theorem recvCap_eq (h : reserved ≤ seen) (window : seen - reserved < cap) :
    recvCap cap (reserved % cap) (seen % cap) len = min (seen - reserved) len := by
  have hr := mod_lt reserved (by omega : 0 < cap)
  have hs := mod_lt seen (by omega : 0 < cap)
  have nowrap : wrappingAdd (wrappingSub (seen % cap) (reserved % cap)) cap =
      seen % cap + cap - reserved % cap := by
    simp only [wrappingAdd, wrappingSub, usizeSize]
    omega
  rw [recvCap, nowrap, dist_mod h window]

/-- The count that a write reserves, from positions. -/
theorem sendCap_eq (h : seen ≤ reserved) (room : reserved ≤ seen + (cap - 1)) (pos : 0 < cap) :
    sendCap cap (seen % cap) (reserved % cap) len = min (seen + (cap - 1) - reserved) len := by
  have hs := mod_lt seen pos
  have hr := mod_lt reserved pos
  have nowrap : wrappingSub (wrappingAdd (wrappingSub (seen % cap) (reserved % cap)) cap) 1 =
      seen % cap + cap - reserved % cap - 1 := by
    simp only [wrappingAdd, wrappingSub, usizeSize]
    omega
  have dist : ((seen + (cap - 1)) % cap + cap - reserved % cap) % cap =
      seen + (cap - 1) - reserved :=
    dist_mod room (by omega)
  have cells : (seen % cap + cap - reserved % cap - 1) % cap = seen + (cap - 1) - reserved := by
    rw [← dist]
    by_cases hz : seen % cap = 0
    · rw [mod_add_of_lt (by omega), hz, Nat.zero_add, Nat.zero_add,
        show cap - 1 + cap - reserved % cap = cap - reserved % cap - 1 + cap by
          omega, add_mod_right]
    · rw [mod_add_of_ge (by omega) (by omega),
        show seen % cap + (cap - 1) - cap + cap - reserved % cap = seen % cap + cap - reserved %
          cap - 1 by omega]
  rw [sendCap, nowrap, cells]

theorem advance_eq (hn : n < cap) : advance cap (pos % cap) n = (pos + n) % cap := by
  have hr := mod_lt pos (by omega : 0 < cap)
  rw [advance, wrappingAdd_of_lt (by simp only [usizeSize]; omega), mod_add_mod]

/-- The end of a reservation is behind its start unless it reaches the end of the ring. -/
theorem advance_gt_iff (hn : n < cap) (hpos : 0 < n) :
    advance cap (pos % cap) n > pos % cap ↔ pos % cap + n < cap := by
  rw [advance_eq hcap hn]
  by_cases hwrap : pos % cap + n < cap
  · rw [mod_add_of_lt hwrap]
    omega
  · rw [mod_add_of_ge (by omega) hn]
    omega

theorem firstEnd_eq (hn : n < cap) (hpos : 0 < n) : firstEnd cap (pos % cap) n = min
    (pos % cap + n) cap := by
  unfold firstEnd
  split
  · rename_i h
    rw [advance_gt_iff hcap hn hpos] at h
    rw [advance_eq hcap hn, mod_add_of_lt h]
    omega
  · rename_i h
    rw [advance_gt_iff hcap hn hpos] at h
    omega

end

end Arithmetic

section Copies

variable {cap : Nat} {data : Nat → Byte} {stream : List Byte} {q m : Nat}

theorem copyIn_at {b : Byte} (h : bytes[k]? = some b) :
    copyIn data start bytes (start + k) = b := by
  rw [copyIn, if_pos (Nat.le_add_right _ _), Nat.add_sub_cancel_left, h, Option.getD_some]

theorem copyIn_other {c : Nat} (h : ∀ k < bytes.length, c ≠ start + k) :
    copyIn data start bytes c = data c := by
  unfold copyIn
  split
  · have out : bytes.length ≤ c - start := by
      by_contra hlt
      exact h (c - start) (by omega) (by omega)
    rw [getElem?_eq_none out, Option.getD_none]
  · rfl

theorem getElem?_part (hk : k < m) : ((stream.drop q).take m)[k]? = stream[q + k]? := by
  rw [getElem?_take_of_lt hk, getElem?_drop]

theorem part_split (xs : List Byte) (p a b : Nat) :
    (xs.drop p).take (a + b) = (xs.drop p).take a ++ (xs.drop (p + a)).take b := by
  rw [take_add, drop_drop]

/-- Bytes of the stream are copied to the cells of their positions, which are
contiguous. -/
theorem copyIn_filled (cells : q % cap + m ≤ cap) (size : q + m ≤ stream.length) (p : Nat)
    (low : q ≤ p) (high : p < q + m) :
    stream[p]? = some (copyIn data (q % cap) ((stream.drop q).take m) (p % cap)) := by
  obtain ⟨k, rfl⟩ := Nat.exists_eq_add_of_le low
  have hk : k < m := by omega
  obtain ⟨b, hb⟩ : ∃ b, stream[q + k]? = some b := ⟨_, getElem?_eq_getElem (by omega)⟩
  rw [mod_add_of_lt (by omega), hb, copyIn_at ((getElem?_part hk).trans hb)]

/-- Other positions of the window keep their bytes. -/
theorem copyIn_kept (base : Nat) (cells : q % cap + m ≤ cap) (hq : base ≤ q ∧ q + m ≤ base + cap)
    (hp : base ≤ p ∧ p < base + cap) (apart : p < q ∨ q + m ≤ p) :
    copyIn data (q % cap) ((stream.drop q).take m) (p % cap) = data (p % cap) := by
  apply copyIn_other
  intro k hk hcell
  have hk : k < m := hk.trans_le (length_take_le _ _)
  rw [← mod_add_of_lt (by omega)] at hcell
  obtain hle | hle := Nat.le_total p (q + k)
  · have := eq_of_mod_eq hle (by omega) hcell.symm
    omega
  · have := eq_of_mod_eq hle (by omega) hcell
    omega

/-- The cells of contiguous positions are copied out. -/
theorem slice_filled (cells : q % cap + m ≤ cap)
    (filled : ∀ p, q ≤ p → p < q + m → stream[p]? = some (data (p % cap))) :
    slice data (q % cap) (q % cap + m) = (stream.drop q).take m := by
  apply ext_getElem?
  intro k
  rw [slice, Nat.add_sub_cancel_left, getElem?_map]
  by_cases hk : k < m
  · rw [getElem?_range' hk, getElem?_part hk, filled (q + k) (Nat.le_add_right _ _) (by omega),
      mod_add_of_lt (by omega), Nat.one_mul]
    rfl
  · rw [getElem?_eq_none (by simp; omega), getElem?_eq_none (by simp; omega)]
    rfl

end Copies

section Frame

variable {cap i n startOff : Nat} {s s' : State} {t u : Thread}

theorem part_append {xs ys : List Byte} (h : p + n ≤ xs.length) :
    ((xs ++ ys).drop p).take n = (xs.drop p).take n := by
  rw [drop_append_of_le_length (by omega), take_append_of_le_length (by simp; omega)]

theorem Filled.mono (h : Filled cap s pos n) (stream : s.stream <+: s'.stream)
    (cells : ∀ p, pos ≤ p → p < pos + n → s'.data (p % cap) = s.data (p % cap)) :
    Filled cap s' pos n := by
  intro p low high
  obtain ⟨rest, hrest⟩ := stream
  have hp := h p low high
  rw [← hrest, List.getElem?_append_left (List.getElem?_eq_some_iff.mp hp).1, hp,
    cells p low high]

/-- What the step of one thread must leave to another. -/
structure Frame (cap : Nat) (s s' : State) (t : Thread) : Prop where
  stream : s.stream <+: s'.stream
  committed : s.committed ≤ s'.committed
  total : bytesOf s.reads ≤ bytesOf s'.reads
  released : s.released ≤ s'.released
  low : ∀ {startOff n}, t.reading = some (startOff, n) → s'.released ≤ t.pos
  high : ∀ {startOff n}, t.writing = some (startOff, n) → s'.committed ≤ t.pos
  cells : ∀ {startOff n}, t.writing = some (startOff, n) → ∀ p, t.pos ≤ p →
    p < t.pos + n → s'.data (p % cap) = s.data (p % cap)

theorem Reads.mono (h : Reads cap s pos startOff n) (total : bytesOf s.reads ≤ bytesOf s'.reads)
    (low : s'.released ≤ pos) : Reads cap s' pos startOff n :=
  ⟨h.start, h.size, low, h.high.trans total⟩

theorem Writes.mono (h : Writes cap s pos startOff n wdata) (stream : s.stream <+: s'.stream)
    (low : s'.committed ≤ pos) : Writes cap s' pos startOff n wdata := by
  refine ⟨h.start, h.size, low, h.high.trans stream.length_le, ?_⟩
  obtain ⟨rest, hrest⟩ := stream
  rw [← hrest, part_append h.high, h.data]

theorem Frame.ok (f : Frame cap s s' t) (inv : Shared cap s) (h : ThreadOk cap s t) :
    ThreadOk cap s' t := by
  have bound := inv.order.2.1.trans inv.order.2.2.1
  have part : ∀ {p n}, p + n ≤ bytesOf s.reads →
      (s'.stream.drop p).take n = (s.stream.drop p).take n := by
    intro p n hp
    obtain ⟨rest, hrest⟩ := f.stream
    rw [← hrest, part_append (hp.trans bound)]
  cases t with
  | reader r =>
    obtain ⟨len, pc, rdata, seen, pos⟩ := r
    cases pc with
    | loadResv | loadCommit => exact h
    | reserve rx tx => exact ⟨h.1, h.2.1, h.2.2.trans f.committed⟩
    | copyFirst startOff n => exact Reads.mono h f.total (f.low rfl)
    | copySecond startOff n =>
      obtain ⟨reads, hwrap, hdata⟩ := h
      refine ⟨reads.mono f.total (f.low rfl), hwrap, hdata.trans (part ?_).symm⟩
      have := reads.high
      omega
    | commit startOff n efault =>
      obtain ⟨reads, hok, hdata⟩ := h
      exact ⟨reads.mono f.total (f.low rfl), hok, hdata.trans (part reads.high).symm⟩
    | done result =>
      obtain ⟨n, rfl, hn, hdata⟩ := h
      exact ⟨n, rfl, hn.trans f.total, hdata.trans (part hn).symm⟩
  | writer w =>
    obtain ⟨wdata, pc, seen, pos⟩ := w
    cases pc with
    | loadCommit | done result => trivial
    | loadResv rx | reserve rx tx => exact ⟨h.1, h.2.trans f.released⟩
    | copyFirst startOff n => exact Writes.mono h f.stream (f.high rfl)
    | copySecond startOff n =>
      obtain ⟨writes, hwrap, filled⟩ := h
      refine ⟨writes.mono f.stream (f.high rfl), hwrap, filled.mono f.stream
        fun p low high => ?_⟩
      have high : p < pos + (cap - startOff) := high
      exact f.cells rfl p low (show p < pos + n by omega)
    | commit startOff n efault =>
      obtain ⟨writes, hok, filled⟩ := h
      exact ⟨writes.mono f.stream (f.high rfl), hok, filled.mono f.stream fun p low high =>
        f.cells rfl p low high⟩

theorem wdata_update (hthreads : s'.threads = update s.threads i t)
    (hdata : t.wdata = (s.threads i).wdata) (j : Nat) :
    (s'.threads j).wdata = (s.threads j).wdata := by
  rw [hthreads]
  by_cases hj : j = i
  · subst hj
    rw [update_self, hdata]
  · rw [update_of_ne hj]

/-- The sent bytes do not change when a thread goes on. -/
theorem written_append {m : List (Nat × Nat)}
    (same : ∀ j, (s'.threads j).wdata = (s.threads j).wdata) (writes : s'.writes = s.writes ++ m) :
    s'.written = s.written ++ (m.map fun (j, n) => (s.threads j).wdata.take n).flatten := by
  unfold written
  rw [writes, map_append, flatten_append]
  simp only [same]

/-- The cells of a thread are apart from those of another. -/
def Apart (f : Thread → Option (Nat × Nat)) (t u : Thread) : Prop := ∀ startOff startOff' n n',
  f t = some (startOff, n) → f u = some (startOff', n') → t.pos + n ≤ u.pos ∨
    u.pos + n' ≤ t.pos

theorem Apart.of_none (none : f t = none) : Apart f t u := by
  intro startOff startOff' n n' some
  cases none.symm.trans some

/-- Cells of two threads are apart after a step of thread `i` if its cells are apart from those of
the others. -/
theorem apart_next (hthreads : s'.threads = update s.threads i t)
    (before : ∀ i j startOff startOff' n n', i ≠ j → f (s.threads i) = some (startOff, n) →
      f (s.threads j) = some (startOff', n') →
      (s.threads i).pos + n ≤ (s.threads j).pos ∨ (s.threads j).pos + n' ≤ (s.threads i).pos)
    (new : ∀ j, j ≠ i → Apart f t (s.threads j)) (j k startOff startOff' n n' : Nat)
    (hjk : j ≠ k) (hj : f (s'.threads j) = some (startOff, n))
    (hk : f (s'.threads k) = some (startOff', n')) :
    (s'.threads j).pos + n ≤ (s'.threads k).pos ∨
    (s'.threads k).pos + n' ≤ (s'.threads j).pos := by
  rw [hthreads] at hj hk ⊢
  by_cases hji : j = i
  · subst hji
    rw [update_self] at hj ⊢
    rw [update_of_ne hjk.symm] at hk ⊢
    exact new k hjk.symm _ _ _ _ hj hk
  · rw [update_of_ne hji] at hj ⊢
    by_cases hki : k = i
    · subst hki
      rw [update_self] at hk ⊢
      exact (new j hji _ _ _ _ hk hj).symm
    · rw [update_of_ne hki] at hk ⊢
      exact before j k _ _ _ _ hjk hj hk

section

variable (inv : Inv cap s) (hi : s.threads i = u)
include inv hi

theorem Inv.ok : ThreadOk cap s u := hi ▸ inv.threads i

/-- The reservations of reads, of which a step of thread `i` changes none. -/
theorem Inv.log_kept (hthreads : s'.threads = update s.threads i t) (reads : s'.reads = s.reads)
    (kept : ∀ n, u.reserved = some n → t.reserved = some n ∧ t.pos = u.pos) (k j n : Nat)
    (hk : s'.reads[k]? = some (j, n)) : (s'.threads j).reserved = some n ∧
      (s'.threads j).pos = bytesOf (s'.reads.take k) := by
  subst hi
  rw [reads] at hk ⊢
  obtain ⟨size, pos⟩ := inv.log k j n hk
  rw [hthreads]
  by_cases hj : j = i
  · subst hj
    rw [update_self, ← pos]
    exact kept n size
  · rw [update_of_ne hj]
    exact ⟨size, pos⟩

/-- The threads after a step of thread `i`, if the shared part is as it should be. -/
theorem Inv.next (hthreads : s'.threads = update s.threads i t) (shared : Shared cap s')
    (ok : ThreadOk cap s' t)
    (others : ∀ j, j ≠ i → Frame cap s s' (s.threads j)) (readers : ∀ j, j ≠ i →
    Apart Thread.reading t (s.threads j))
    (writers : ∀ j, j ≠ i → Apart Thread.writing t (s.threads j)) (wdata : t.wdata = u.wdata)
    (stream : ∃ m, s'.writes = s.writes ++ m ∧
    s'.stream = s.stream ++ (m.map fun (j, n) => (s.threads j).wdata.take n).flatten)
    (log : ∀ k j n, s'.reads[k]? = some (j, n) → (s'.threads j).reserved = some n ∧
    (s'.threads j).pos = bytesOf (s'.reads.take k)) : Inv cap s' := by
  refine ⟨shared, ?_, apart_next hthreads inv.readers readers,
    apart_next hthreads inv.writers writers, ?_, log⟩
  · intro j
    rw [hthreads]
    by_cases hj : j = i
    · subst hj
      rw [update_self]
      exact ok
    · rw [update_of_ne hj]
      exact (others j hj).ok inv.toShared (inv.threads j)
  · obtain ⟨m, hwrites, hstream⟩ := stream
    rw [hstream, written_append (wdata_update hthreads (hi ▸ wdata)) hwrites, inv.stream]

end

theorem ThreadOk.reads (h : ThreadOk cap s t) (hr : t.reading = some (startOff, n)) :
    Reads cap s t.pos startOff n := by
  cases t with
  | writer w => cases hr
  | reader r =>
    obtain ⟨len, pc, rdata, seen, pos⟩ := r
    cases pc with
    | loadResv | loadCommit | reserve | done => cases hr
    | copyFirst =>
      cases hr
      exact h
    | copySecond | commit =>
      cases hr
      exact h.1

theorem ThreadOk.writes (h : ThreadOk cap s t) (hw : t.writing = some (startOff, n)) :
    Writes cap s t.pos startOff n t.wdata := by
  cases t with
  | reader r => cases hw
  | writer w =>
    obtain ⟨wdata, pc, seen, pos⟩ := w
    cases pc with
    | loadCommit | loadResv | reserve | done => cases hw
    | copyFirst =>
      cases hw
      exact h
    | copySecond | commit =>
      cases hw
      exact h.1

/-- Nothing changes but what has been reserved. -/
theorem ThreadOk.frame (ok : ThreadOk cap s t) (stream : s.stream <+: s'.stream)
    (total : bytesOf s.reads ≤ bytesOf s'.reads) (released : s'.released = s.released)
    (committed : s'.committed = s.committed) (data : s'.data = s.data) : Frame cap s s' t where
  stream := stream
  committed := committed.ge
  total := total
  released := released.ge
  low hr := released ▸ (ok.reads hr).low
  high hw := committed ▸ (ok.writes hw).low
  cells _ _ _ _ := data ▸ rfl

/-- A step that is not seen by the other threads. -/
theorem Inv.quiet (inv : Inv cap s) (hi : s.threads i = u) (ok : ThreadOk cap s t)
    (reading : t.reading = u.reading) (writing : t.writing = u.writing) (pos : t.pos = u.pos)
    (wdata : t.wdata = u.wdata) (reserved : t.reserved = u.reserved) :
    Inv cap (s.setThread i t) := by
  subst hi
  apply inv.next (t := t) rfl rfl
  · exact { inv.toShared with }
  · exact Frame.ok (ok.frame (prefix_refl _) le_rfl rfl rfl rfl) inv.toShared ok
  · exact fun j _ => (inv.threads j).frame (prefix_refl _) le_rfl rfl rfl rfl
  · intro j hj startOff startOff' n n' hr hr'
    rw [pos]
    exact inv.readers i j _ _ _ _ (Ne.symm hj) (reading ▸ hr) hr'
  · intro j hj startOff startOff' n n' hw hw'
    rw [pos]
    exact inv.writers i j _ _ _ _ (Ne.symm hj) (writing ▸ hw) hw'
  · exact wdata
  · exact ⟨[], (append_nil _).symm, (append_nil _).symm⟩
  · exact inv.log_kept rfl rfl rfl fun n size => ⟨reserved.trans size, pos⟩

end Frame

section Reader

variable {cap i n startOff : Nat} {s s' : State} {r : Reader}

theorem bytesOf_append (reads : List (Nat × Nat)) (n : Nat) :
    bytesOf (reads ++ [(i, n)]) = bytesOf reads + n := by
  simp [bytesOf]

/-- What a read has reserved is in the buffer. -/
theorem Inv.filled_reads (inv : Inv cap s) (h : Reads cap s pos startOff n) :
    Filled cap s pos n := by
  intro p low high
  have := inv.order
  have := h.low
  have := h.high
  exact inv.filled p (by omega) (by omega)

theorem Inv.size_lt (hpos : 0 < cap) (inv : Inv cap s) (h : Reads cap s pos startOff n) :
    n < cap := by
  have := inv.order
  have := h.low
  have := h.high
  omega

section Step

variable (hpos : 0 < cap) (hcap : cap < 2 ^ 63) (inv : Inv cap s) (hi : s.threads i = .reader r)
  (run : stepReader cap i r s = some s')
include hpos hcap inv hi run

theorem Inv.reserveRead (hpc : r.pc = .reserve rx tx) (hrx : s.readResv = rx)
    (timely : bytesOf s.reads ≤ r.seen) : Inv cap s' := by
  obtain ⟨len, pc, rdata, seen, pos⟩ := r
  subst hpc
  obtain ⟨hdata, rfl, hseen⟩ : rdata = [] ∧ tx = seen % cap ∧ seen ≤ s.committed :=
    inv.ok hi
  have order := inv.order
  have hn : recvCap cap rx (seen % cap) len = min (seen - bytesOf s.reads) len := by
    rw [← hrx, inv.readResv]
    exact recvCap_eq hcap timely (by omega)
  generalize hcount : recvCap cap rx (seen % cap) len = n at hn
  simp only [stepReader, if_pos hrx, hcount] at run
  cases run
  apply inv.next hi rfl
  · refine { inv.toShared with readResv := ?_, order := ?_ }
    · dsimp only [setThread]
      rw [bytesOf_append, ← hrx, inv.readResv]
      exact advance_eq hcap (by omega)
    · dsimp only [setThread]
      rw [bytesOf_append]
      omega
  · dsimp only [setThread]
    split
    · rename_i hz
      refine ⟨0, rfl, ?_, ?_⟩
      · rw [bytesOf_append]
        dsimp only
        omega
      · rw [take_zero]
        exact hdata
    · rename_i hz
      refine ⟨?_, Nat.pos_of_ne_zero hz, order.1, ?_⟩
      · rw [← hrx, inv.readResv]
      · rw [bytesOf_append]
  · intro j hj
    apply (inv.threads j).frame
    · exact prefix_refl _
    · dsimp only [setThread]
      rw [bytesOf_append]
      exact Nat.le_add_right _ _
    · rfl
    · rfl
    · rfl
  · exact fun j _ _ _ _ _ _ hr => .inr ((inv.threads j).reads hr).high
  · exact fun _ _ => .of_none rfl
  · rfl
  · exact ⟨[], (append_nil _).symm, (append_nil _).symm⟩
  · have fresh : (s.threads i).reserved = none := by
      rw [hi]
      rfl
    intro k j m hk
    dsimp only [setThread] at hk ⊢
    by_cases hlast : k < s.reads.length
    · rw [getElem?_append_left hlast] at hk
      have old := inv.log k j m hk
      have hj : j ≠ i := by
        rintro rfl
        rw [fresh] at old
        cases old.1
      rw [update_of_ne hj, take_append_of_le_length hlast.le]
      exact old
    · have hk' := (List.getElem?_eq_some_iff.mp hk).1
      rw [length_append, length_singleton] at hk'
      obtain rfl : k = s.reads.length := by omega
      rw [getElem?_concat_length] at hk
      cases hk
      rw [update_self, take_left]
      constructor
      · split
        · rename_i hz
          rw [hz]
          rfl
        · rfl
      · rfl

/-- The copies out of the buffer. -/
theorem Inv.copyRead (hpc : r.pc = .copyFirst startOff n ∨ r.pc = .copySecond startOff n) :
    Inv cap s' := by
  obtain ⟨len, pc, rdata, seen, pos⟩ := r
  have ok := inv.ok hi
  obtain rfl | rfl := hpc
  · have reads : Reads cap s pos startOff n := ok
    have hn := inv.size_lt hpos reads
    have filled := inv.filled_reads reads
    obtain rfl := reads.start
    have hstart := mod_lt pos hpos
    simp only [stepReader, advance_gt_iff hcap hn reads.size, firstEnd_eq hcap hn reads.size] at run
    cases run
    by_cases hwrap : pos % cap + n < cap
    · rw [if_pos hwrap, Nat.min_eq_left hwrap.le]
      apply inv.quiet hi
      · exact ⟨reads, rfl, slice_filled (by omega) filled⟩
      all_goals rfl
    · rw [if_neg hwrap, Nat.min_eq_right (by omega)]
      apply inv.quiet hi
      · refine ⟨reads, by omega, ?_⟩
        have cells : pos % cap + (cap - pos % cap) = cap := by omega
        have key := slice_filled (q := pos) (m := cap - pos % cap) cells.le
          fun p low high => filled p low (by omega)
        rw [cells] at key
        exact key
      all_goals rfl
  · obtain ⟨reads, hwrap, hdata⟩ : Reads cap s pos startOff n ∧ cap ≤ startOff + n ∧
      rdata = (s.stream.drop pos).take (cap - startOff) := ok
    have hn := inv.size_lt hpos reads
    have filled := inv.filled_reads reads
    obtain rfl := reads.start
    have hstart := mod_lt pos hpos
    cases run
    apply inv.quiet hi
    · refine ⟨reads, rfl, ?_⟩
      -- The rest begins at the first cell.
      have first : (pos + (cap - pos % cap)) % cap = 0 := by
        rw [mod_add_of_ge (by omega) (by omega)]
        omega
      have rest := slice_filled (q := pos + (cap - pos % cap)) (m := pos % cap + n - cap) (by omega)
        fun p low high => filled p (by omega) (by omega)
      rw [first, Nat.zero_add] at rest
      dsimp only
      rw [advance_eq hcap hn, mod_add_of_ge hwrap hn, rest, hdata, ← part_split]
      congr 1
      omega
    all_goals rfl

/-- The release of what was read. -/
theorem Inv.commitRead (hpc : r.pc = .commit startOff n efault) : Inv cap s' := by
  obtain ⟨len, pc, rdata, seen, pos⟩ := r
  subst hpc
  obtain ⟨reads, rfl, hdata⟩ : Reads cap s pos startOff n ∧ efault = false ∧
      rdata = (s.stream.drop pos).take n := inv.ok hi
  have hn := inv.size_lt hpos reads
  have order := inv.order
  have low := reads.low
  have high := reads.high
  simp only [stepReader] at run
  split at run
  · rename_i turn
    -- It is the turn of the read with the first bytes that are not released.
    obtain rfl : pos = s.released := by
      refine eq_of_mod_eq low (by omega : pos - s.released < cap) ?_
      rw [← reads.start, ← turn, inv.readCommit]
    cases run
    apply inv.next hi rfl
    · refine { inv.toShared with readCommit := ?_, order := ?_, filled := fun p hp hp' => ?_ }
      · dsimp only
        rw [reads.start, advance_eq hcap hn]
      · dsimp only [setThread]
        omega
      · dsimp only [setThread] at hp hp'
        exact inv.filled p (by omega) (by omega)
    · exact ⟨n, rfl, high, hdata⟩
    · intro j hj
      refine ⟨prefix_refl _, le_rfl, le_rfl, Nat.le_add_right _ _, ?_, ?_, ?_⟩
      · intro startOff' n' hr
        have others := (inv.threads j).reads hr
        have apart : s.released + n ≤ (s.threads j).pos ∨
            (s.threads j).pos + n' ≤ s.released := by
          have apart := inv.readers i j _ _ _ _ (Ne.symm hj) (by rw [hi]; rfl) hr
          rw [hi] at apart
          exact apart
        have := others.low
        have := others.size
        dsimp only
        omega
      · exact fun hw => ((inv.threads j).writes hw).low
      · exact fun _ _ _ _ => rfl
    · exact fun _ _ => .of_none rfl
    · exact fun _ _ => .of_none rfl
    · rfl
    · exact ⟨[], (append_nil _).symm, (append_nil _).symm⟩
    · exact inv.log_kept hi rfl rfl fun m size => ⟨size, rfl⟩
  · cases run
    exact inv

theorem Inv.stepReader (timely : Timely cap s (.run i)) : Inv cap s' := by
  obtain ⟨len, pc, rdata, seen, pos⟩ := r
  have ok := inv.ok hi
  cases pc with
  | loadResv =>
    cases run
    apply inv.quiet hi
    · exact ok
    all_goals rfl
  | loadCommit rx =>
    cases run
    apply inv.quiet hi
    · exact ⟨ok, inv.writeCommit, le_rfl⟩
    all_goals rfl
  | reserve rx tx =>
    by_cases hrx : s.readResv = rx
    · simp only [Timely, Thread.Timely, ReadPc.Timely, hi] at timely
      exact inv.reserveRead hpos hcap hi run rfl hrx (timely hrx)
    · simp only [Fifo.stepReader, if_neg hrx] at run
      cases run
      apply inv.quiet hi
      · exact ok
      all_goals rfl
  | copyFirst startOff n => exact inv.copyRead hpos hcap hi run (.inl rfl)
  | copySecond startOff n => exact inv.copyRead hpos hcap hi run (.inr rfl)
  | commit startOff n efault => exact inv.commitRead hpos hcap hi run rfl
  | done result => cases run

end Step

end Reader

section Writer

variable {cap i n startOff : Nat} {s s' : State} {w : Writer}

/-- A part of what a write copies, as a part of the stream. -/
theorem Writes.part {a b : Nat} (h : Writes cap s pos startOff n wdata)
    (hab : a + b ≤ n) : (wdata.drop a).take b = (s.stream.drop (pos + a)).take b := by
  have cut : ∀ xs : List Byte, (xs.drop a).take b = ((xs.take n).drop a).take b := by
    intro xs
    rw [drop_take, take_take, Nat.min_eq_left (by omega)]
  rw [cut wdata, ← h.data, ← cut, drop_drop]

/-- A write copies bytes to cells that it has reserved. -/
theorem Inv.fill (inv : Inv cap s) {t : Thread} {q m : Nat}
    (hw : (s.threads i).writing = some (startOff, n))
    (hq : (s.threads i).pos ≤ q) (hm : q + m ≤ (s.threads i).pos + n)
    (cells : q % cap + m ≤ cap) (hpos : 0 < cap)
    (writing : t.writing = some (startOff, n)) (pos : t.pos = (s.threads i).pos)
    (reading : t.reading = none) (wdata : t.wdata = (s.threads i).wdata)
    (ok : (∀ p, q ≤ p → p < q + m → s.stream[p]? =
      some (copyIn s.data (q % cap) ((s.stream.drop q).take m) (p % cap))) →
      (∀ p, s.released ≤ p → p < q →
        copyIn s.data (q % cap) ((s.stream.drop q).take m) (p % cap) =
      s.data (p % cap)) →
      ThreadOk cap
        { s.setThread i t with data := copyIn s.data (q % cap) ((s.stream.drop q).take m) } t) :
    Inv cap
      { s.setThread i t with data := copyIn s.data (q % cap) ((s.stream.drop q).take m) } := by
  have order := inv.order
  have writes := (inv.threads i).writes hw
  have low := writes.low
  have high := writes.high
  have kept : ∀ p, s.released ≤ p → p < s.stream.length → p < q ∨ q + m ≤ p →
      copyIn s.data (q % cap) ((s.stream.drop q).take m) (p % cap) = s.data (p % cap) :=
    fun p hp hp' apart => copyIn_kept s.released cells (by omega) (by omega) apart
  apply inv.next rfl rfl
  · refine { inv.toShared with filled := fun p hp hp' => ?_ }
    dsimp only [setThread] at hp hp' ⊢
    rw [kept p hp (by omega) (by omega)]
    exact inv.filled p hp hp'
  · apply ok
    · exact copyIn_filled cells (by omega)
    · exact fun p hp hp' => kept p hp (by omega) (.inl hp')
  · intro j hj
    refine ⟨prefix_refl _, le_rfl, le_rfl, le_rfl, ?_, ?_, ?_⟩
    · exact fun hr => ((inv.threads j).reads hr).low
    · exact fun hw' => ((inv.threads j).writes hw').low
    · intro startOff' n' hw' p hp hp'
      have others := (inv.threads j).writes hw'
      have := others.low
      have := others.high
      have apart := inv.writers i j _ _ _ _ (Ne.symm hj) hw hw'
      exact kept p (by omega) (by omega) (by omega)
  · exact fun _ _ => .of_none reading
  · intro j hj startOff₁ startOff' n₁ n' hw₁ hw'
    rw [writing] at hw₁
    cases hw₁
    rw [pos]
    exact inv.writers i j _ _ _ _ (Ne.symm hj) hw hw'
  · exact wdata
  · exact ⟨[], (append_nil _).symm, (append_nil _).symm⟩
  · refine inv.log_kept rfl rfl rfl ?_
    cases hi : s.threads i with
    | reader r =>
      rw [hi] at hw
      cases hw
    | writer w => nofun

section Step

variable (hpos : 0 < cap) (hcap : cap < 2 ^ 63) (inv : Inv cap s) (hi : s.threads i = .writer w)
  (run : stepWriter cap i w s = some s')
include hpos hcap inv hi run

theorem Inv.reserveWrite (hpc : w.pc = .reserve rx tx) (htx : s.writeResv = tx)
    (timely : s.stream.length ≤ w.seen + (cap - 1)) : Inv cap s' := by
  obtain ⟨wdata, pc, seen, pos⟩ := w
  subst hpc
  obtain ⟨rfl, hseen⟩ : rx = seen % cap ∧ seen ≤ s.released := inv.ok hi
  have order := inv.order
  have hn : sendCap cap (seen % cap) tx wdata.length = min (seen + (cap - 1) - s.stream.length)
      wdata.length := by
    rw [← htx, inv.writeResv]
    exact sendCap_eq hcap (by omega) timely hpos
  generalize hcount : sendCap cap (seen % cap) tx wdata.length = n at hn
  have hlen : (wdata.take n).length = n := by
    rw [length_take]
    omega
  have length : (s.stream ++ wdata.take n).length = s.stream.length + n := by
    rw [length_append, hlen]
  simp only [stepWriter, if_pos htx, hcount] at run
  cases run
  apply inv.next hi rfl
  · refine { inv.toShared with writeResv := ?_, order := ?_, filled := ?_ }
    · dsimp only
      rw [length, ← htx, inv.writeResv]
      exact advance_eq hcap (by omega)
    · dsimp only [setThread] at order ⊢
      omega
    · exact inv.filled.mono (prefix_append _ _) fun _ _ _ => rfl
  · split
    · trivial
    · rename_i hz
      refine ⟨?_, Nat.pos_of_ne_zero hz, order.2.2.1, ?_, ?_⟩
      · rw [← htx, inv.writeResv]
      · exact length.symm.le
      · dsimp only
        rw [drop_left, take_take, Nat.min_self]
  · intro j hj
    apply (inv.threads j).frame
    · exact prefix_append _ _
    · exact le_rfl
    · rfl
    · rfl
    · rfl
  · exact fun _ _ => .of_none rfl
  · exact fun j _ _ _ _ _ _ hw => .inr ((inv.threads j).writes hw).high
  · simp only [Thread.wdata]
  · refine ⟨[(i, n)], rfl, ?_⟩
    rw [map_singleton, flatten_singleton]
    dsimp only
    rw [hi]
    rfl
  · exact inv.log_kept hi rfl rfl nofun

theorem Inv.copyWrite (hpc : w.pc = .copyFirst startOff n ∨ w.pc = .copySecond startOff n) :
    Inv cap s' := by
  obtain ⟨wdata, pc, seen, pos⟩ := w
  have ok := inv.ok hi
  have order := inv.order
  have hipos : (s.threads i).pos = pos := by
    rw [hi]
    rfl
  obtain rfl | rfl := hpc
  · have writes : Writes cap s pos startOff n wdata := ok
    have low := writes.low
    have high := writes.high
    have hn : n < cap := by omega
    obtain rfl := writes.start
    have hstart := mod_lt pos hpos
    simp only [stepWriter, advance_gt_iff hcap hn writes.size,
      firstEnd_eq hcap hn writes.size] at run
    have part := writes.part (a := 0) (b := min (pos % cap + n) cap - pos % cap) (by omega)
    rw [drop_zero, Nat.add_zero] at part
    rw [part] at run
    cases run
    apply inv.fill (n := n) (by rw [hi]; rfl) (by omega) (by omega) (by omega) hpos
    · split <;> rfl
    · exact hipos.symm
    · rfl
    · rw [hi]
      rfl
    · intro filled _
      split
      · rename_i hwrap
        refine ⟨⟨rfl, writes.size, low, high, writes.data⟩, rfl,
          fun p hp hp' => filled p hp ?_⟩
        dsimp only at hp'
        omega
      · rename_i hwrap
        refine ⟨⟨rfl, writes.size, low, high,
          writes.data⟩, by omega, fun p hp hp' => filled p hp ?_⟩
        dsimp only at hp'
        omega
  · obtain ⟨writes, hwrap, filled₁⟩ : Writes cap s pos startOff n wdata ∧
      cap ≤ startOff + n ∧ Filled cap s pos (cap - startOff) := ok
    have low := writes.low
    have high := writes.high
    have hn : n < cap := by omega
    obtain rfl := writes.start
    have hstart := mod_lt pos hpos
    -- The rest begins at the first cell.
    have first : (pos + (cap - pos % cap)) % cap = 0 := by
      rw [mod_add_of_ge (by omega) (by omega)]
      omega
    simp only [stepWriter, advance_eq hcap hn, mod_add_of_ge hwrap hn] at run
    have part := writes.part (a := cap - pos % cap) (b := pos % cap + n - cap) (by omega)
    rw [part, ← first] at run
    cases run
    apply inv.fill (n := n) (by rw [hi]; rfl) (by omega) (by omega) (by omega) hpos
    · rfl
    · exact hipos.symm
    · rfl
    · rw [hi]
      rfl
    · intro filled kept
      refine ⟨⟨rfl, writes.size, low, high, writes.data⟩, rfl, fun p hp hp' => ?_⟩
      dsimp only at hp hp'
      by_cases hrest : pos + (cap - pos % cap) ≤ p
      · exact filled p hrest (by omega)
      · exact (filled₁ p hp (by omega)).trans (congrArg some (kept p (by omega) (by omega)).symm)

/-- The commit of what was written. -/
theorem Inv.commitWrite (hpc : w.pc = .commit startOff n efault) : Inv cap s' := by
  obtain ⟨wdata, pc, seen, pos⟩ := w
  subst hpc
  obtain ⟨writes, rfl, filled⟩ : Writes cap s pos startOff n wdata ∧ efault = false ∧
    Filled cap s pos n := inv.ok hi
  have order := inv.order
  have low := writes.low
  have high := writes.high
  have hn : n < cap := by omega
  simp only [stepWriter] at run
  split at run
  · rename_i turn
    -- It is the turn of the write behind the bytes that are committed.
    obtain rfl : pos = s.committed := by
      refine eq_of_mod_eq low (by omega : pos - s.committed < cap) ?_
      rw [← writes.start, ← turn, inv.writeCommit]
    cases run
    apply inv.next hi rfl
    · refine { inv.toShared with writeCommit := ?_, order := ?_, filled := fun p hp hp' => ?_ }
      · dsimp only
        rw [writes.start, advance_eq hcap hn]
      · dsimp only [setThread]
        omega
      · dsimp only [setThread] at hp hp'
        by_cases hold : p < s.committed
        · exact inv.filled p hp (by omega)
        · exact filled p (by omega) (by omega)
    · trivial
    · intro j hj
      refine ⟨prefix_refl _, Nat.le_add_right _ _, le_rfl, le_rfl, ?_, ?_, ?_⟩
      · exact fun hr => ((inv.threads j).reads hr).low
      · intro startOff' n' hw
        have others := (inv.threads j).writes hw
        have apart : s.committed + n ≤ (s.threads j).pos ∨
            (s.threads j).pos + n' ≤ s.committed := by
          have apart := inv.writers i j _ _ _ _ (Ne.symm hj) (by rw [hi]; rfl) hw
          rw [hi] at apart
          exact apart
        have := others.low
        have := others.size
        dsimp only
        omega
      · exact fun _ _ _ _ => rfl
    · exact fun _ _ => .of_none rfl
    · exact fun _ _ => .of_none rfl
    · rfl
    · exact ⟨[], (append_nil _).symm, (append_nil _).symm⟩
    · exact inv.log_kept hi rfl rfl nofun
  · cases run
    exact inv

theorem Inv.stepWriter (timely : Timely cap s (.run i)) : Inv cap s' := by
  obtain ⟨wdata, pc, seen, pos⟩ := w
  have ok := inv.ok hi
  cases pc with
  | loadCommit =>
    cases run
    apply inv.quiet hi
    · exact ⟨inv.readCommit, le_rfl⟩
    all_goals rfl
  | loadResv rx =>
    cases run
    apply inv.quiet hi
    · exact ok
    all_goals rfl
  | reserve rx tx =>
    by_cases htx : s.writeResv = tx
    · simp only [Timely, Thread.Timely, WritePc.Timely, hi] at timely
      exact inv.reserveWrite hpos hcap hi run rfl htx (timely htx)
    · simp only [Fifo.stepWriter, if_neg htx] at run
      cases run
      apply inv.quiet hi
      · exact ok
      all_goals rfl
  | copyFirst startOff n => exact inv.copyWrite hpos hcap hi run (.inl rfl)
  | copySecond startOff n => exact inv.copyWrite hpos hcap hi run (.inr rfl)
  | commit startOff n efault => exact inv.commitWrite hpos hcap hi run rfl
  | done result => cases run

end Step

end Writer

section Delivery

variable {cap : Nat} {s s' s₀ : State}

theorem Inv.step (hpos : 0 < cap) (hcap : cap < 2 ^ 63) {event : Event}
    (timely : Timely cap s event) (inv : Inv cap s) (run : step cap event s = some s') :
    Inv cap s' := by
  cases event with
  | fault => exact timely.elim
  | run i =>
    cases hi : s.threads i with
    | reader r =>
      simp only [Fifo.step, hi] at run
      exact inv.stepReader hpos hcap hi run timely
    | writer w =>
      simp only [Fifo.step, hi] at run
      exact inv.stepWriter hpos hcap hi run timely

theorem Inv.of_fresh (fresh : s.Fresh) : Inv cap s := by
  obtain ⟨⟨rr, rc, wr, wc⟩, ⟨reads, writes, stream, released, committed⟩, threads⟩ :=
    fresh
  have idle : ∀ i, (s.threads i).reading = none ∧ (s.threads i).writing = none := by
    intro i
    obtain ⟨len, h⟩ | ⟨wdata, h⟩ := threads i <;> rw [h] <;> exact ⟨rfl, rfl⟩
  constructor
  · constructor
    · rw [rr, reads]
      exact (zero_mod _).symm
    · rw [rc, released, zero_mod]
    · rw [wr, stream]
      exact (zero_mod _).symm
    · rw [wc, committed, zero_mod]
    · rw [released, reads, committed, stream]
      exact ⟨le_rfl, le_rfl, le_rfl, Nat.zero_le _⟩
    · intro p _ hp
      omega
  · intro i
    obtain ⟨len, h⟩ | ⟨wdata, h⟩ := threads i <;> rw [h]
    · exact rfl
    · trivial
  · intro i j startOff startOff' n n' _ hr
    rw [(idle i).1] at hr
    cases hr
  · intro i j startOff startOff' n n' _ hw
    rw [(idle i).2] at hw
    cases hw
  · rw [stream, written, writes]
    rfl
  · intro k i n hk
    rw [reads] at hk
    cases hk

/-- A read that has copied all has what was written at its position. -/
theorem Inv.copied (inv : Inv cap s) {i n : Nat} (hcopied : (s.threads i).hasCopied = true)
    (hn : (s.threads i).reserved = some n) : (s.threads i).pos + n ≤ bytesOf s.reads ∧
      (s.threads i).rdata = (s.stream.drop (s.threads i).pos).take n := by
  have ok := inv.threads i
  cases hi : s.threads i with
  | writer w =>
    rw [hi] at hn
    cases hn
  | reader r =>
    rw [hi] at ok hn hcopied
    obtain ⟨len, pc, rdata, seen, pos⟩ := r
    cases pc with
    | loadResv | loadCommit | reserve | copyFirst | copySecond => cases hcopied
    | commit startOff m efault =>
      cases hn
      exact ⟨ok.1.high, ok.2.2⟩
    | done result =>
      obtain ⟨m, rfl, hm, hdata⟩ := ok
      cases hn
      exact ⟨hm, hdata⟩

theorem bytesOf_take_succ {reads : List (Nat × Nat)} {i n : Nat} (h : reads[k]? = some (i, n)) :
    bytesOf (reads.take (k + 1)) = bytesOf (reads.take k) + n := by
  rw [take_add_one, h]
  exact bytesOf_append _ _

/-- The first `k` reads have copied the first bytes of the stream. -/
theorem Inv.delivered (inv : Inv cap s) : ∀ k ≤ s.reads.length,
    (∀ read ∈ s.reads.take k, (s.threads read.1).hasCopied = true) →
    s.delivered k = s.stream.take (bytesOf (s.reads.take k)) := by
  intro k
  induction k with
  | zero => exact fun _ _ => rfl
  | succ k ih =>
    intro hk copied
    have hread : s.reads[k]? = some (s.reads[k].1, s.reads[k].2) := getElem?_eq_getElem hk
    obtain ⟨hn, hpos⟩ := inv.log _ _ _ hread
    have before : ∀ read ∈ s.reads.take k, (s.threads read.1).hasCopied = true :=
      fun read h => copied read ((take_sublist_take_left (le_succ k)).subset h)
    have last : s.reads[k] ∈ s.reads.take (k + 1) := by
      apply mem_of_getElem?
      rw [getElem?_take_of_lt (lt_succ_self k)]
      exact hread
    have hdata := (inv.copied (copied _ last) hn).2
    have split : s.delivered (k + 1) = s.delivered k ++ (s.threads s.reads[k].1).rdata := by
      unfold State.delivered
      rw [take_add_one, hread, map_append, flatten_append]
      simp
    rw [split, ih (by omega) before, hdata, hpos, bytesOf_take_succ hread, take_add]

theorem Inv.delivers (hpos : 0 < cap) (inv : Inv cap s) : Delivers cap s := by
  have order := inv.order
  constructor
  · intro i startOff n hr k hk
    have reads := (inv.threads i).reads hr
    have := reads.low
    have := reads.high
    refine ⟨(s.threads i).pos + k, by omega, by omega, ?_⟩
    rw [reads.start, mod_add_mod]
  · intro i j startOff startOff' n n' hij hr hr' k hk k' hk' hcell
    have reads := (inv.threads i).reads hr
    have reads' := (inv.threads j).reads hr'
    have := reads.low
    have := reads.high
    have := reads'.low
    have := reads'.high
    have apart := inv.readers i j _ _ _ _ hij hr hr'
    rw [reads.start, reads'.start, mod_add_mod, mod_add_mod] at hcell
    obtain hle | hle := Nat.le_total ((s.threads i).pos + k) ((s.threads j).pos + k')
    · have := eq_of_mod_eq hle (by omega) hcell.symm
      omega
    · have := eq_of_mod_eq hle (by omega) hcell
      omega
  · intro k copied
    have total : ∀ k, bytesOf (s.reads.take k) ≤ bytesOf s.reads := by
      intro k
      have parts : bytesOf (s.reads.take k ++ s.reads.drop k) =
          bytesOf (s.reads.take k) + bytesOf (s.reads.drop k) := by
        simp only [bytesOf, map_append, List.sum_append]
      rw [take_append_drop] at parts
      omega
    have key : s.delivered k = s.stream.take (bytesOf (s.reads.take k)) := by
      obtain hk | hk := Nat.le_total k s.reads.length
      · exact inv.delivered k hk copied
      · have all := inv.delivered s.reads.length le_rfl
          (by rw [take_length]; rwa [take_of_length_le hk] at copied)
        rw [State.delivered, take_of_length_le hk]
        rw [State.delivered, take_length] at all
        exact all
    have := total k
    rw [key, ← inv.stream]
    exact take_prefix_take_left (by omega)
  · intro p low high
    refine ⟨?_, ?_⟩
    · rw [← inv.stream]
      exact inv.filled p low (by omega)
    · intro i startOff n hw k hk hcell
      have writes := (inv.threads i).writes hw
      have := writes.low
      have := writes.high
      rw [writes.start, mod_add_mod] at hcell
      have := eq_of_mod_eq (by omega) (by omega) hcell
      omega

/-- In every interleaving of reads and writes whose reservations are timely, each
byte is delivered once and in order. -/
theorem fifo_delivers (two : 2 ≤ cap) (hcap : cap < 2 ^ 63) (fresh : s₀.Fresh)
    (h : Reaches (step cap) (Timely cap) s₀ s) : Delivers cap s :=
  (h.invariant (Inv.of_fresh fresh) fun timely inv run =>
    inv.step (by omega) hcap timely run).delivers (by omega)

end Delivery

/-- One call of `write` with one byte, and two calls of `read` for one byte. -/
def threeCalls : State where
  data _ := 0
  readResv := 0
  readCommit := 0
  writeResv := 0
  writeCommit := 0
  threads i :=
    if i = 0 then .writer ⟨[7], .loadCommit, 0, 0⟩
    else .reader ⟨if i ≤ 2 then 1 else 0, .loadResv, [], 0, 0⟩
  reads := []
  writes := []
  stream := []
  released := 0
  committed := 0

theorem threeCalls_fresh : threeCalls.Fresh := by
  refine ⟨⟨rfl, rfl, rfl, rfl⟩, ⟨rfl, rfl, rfl, rfl, rfl⟩, fun i => ?_⟩
  by_cases hi : i = 0
  · exact .inr ⟨[7], by simp [threeCalls, hi]⟩
  · exact .inl ⟨if i ≤ 2 then 1 else 0, by simp [threeCalls, hi]⟩

theorem fifo_delivers_byte : ∃ s, Reaches (step 2) (Timely 2) threeCalls s ∧
    s.delivered 1 = [7] ∧ s.delivered 1 <+: s.written.take s.committed := by
  obtain ⟨s, reached, delivered, copied⟩ : ∃ s, Reaches (step 2) (Timely 2) threeCalls s ∧
    s.delivered 1 = [7] ∧
      ∀ read ∈ s.reads.take 1, (s.threads read.1).hasCopied = true :=
    exists_of_run ([0, 0, 0, 0, 0, 1, 1, 1, 1, 1].map Event.run) (by decide +kernel)
  have delivers := fifo_delivers (by decide) (by decide) threeCalls_fresh reached
  exact ⟨s, reached, delivered, delivers.inOrder 1 copied⟩

/-- A read that lost the race for the only byte tries again with the index that it
loaded before, takes the buffer for full and receives a byte that was never written. -/
theorem not_fifo_delivers : ∃ s, Reaches (step 2) (fun _ _ => True) threeCalls s ∧
    s.written = [7] ∧ s.delivered 2 = [7, 0] ∧ ¬ Delivers 2 s := by
  obtain ⟨s, reached, written, delivered, copied⟩ : ∃ s,
    Reaches (step 2) (fun _ _ => True) threeCalls s ∧
      s.written = [7] ∧ s.delivered 2 = [7, 0] ∧ ∀ read ∈ s.reads.take 2,
          (s.threads read.1).hasCopied = true :=
    exists_of_run ([1, 1, 0, 0, 0, 0, 0, 2, 2, 2, 2, 2, 1, 1, 1, 1, 1].map Event.run)
      (by decide +kernel)
  refine ⟨s, reached, written, delivered, fun delivers => ?_⟩
  have longer := (delivers.inOrder 2 copied).length_le
  rw [delivered, written] at longer
  have := (take_sublist s.committed [(7 : Byte)]).length_le
  simp only [length_cons, length_nil] at longer this
  omega

end BadgerOS.Fifo
