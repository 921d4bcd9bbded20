import BadgerOS.Lib.Interleaving
import BadgerOS.Machine

/-!
# The lock-free fifo

`Fifo` of `util/fifo.rs` with any number of calls of `read` and `write` at once.
Each atomic load, compare-exchange and buffer copy is one step. The fields under
"History" record what happened; no step looks at them.
-/

namespace BadgerOS.Fifo

open Interleaving

abbrev Byte := BitVec 8

/-- The next step of a call of `read`. -/
inductive ReadPc where
  | loadResv
  | loadCommit (rx : Nat)
  | reserve (rx tx : Nat)
  | copyFirst (startOff recvCap : Nat)
  | copySecond (startOff recvCap : Nat)
  | commit (startOff recvCap : Nat) (efault : Bool)
  /-- It has returned the count, or `EFAULT`. -/
  | done (result : Option Nat)
  deriving DecidableEq, Repr

/-- The next step of a call of `write`. -/
inductive WritePc where
  | loadCommit
  | loadResv (rx : Nat)
  | reserve (rx tx : Nat)
  | copyFirst (startOff sendCap : Nat)
  | copySecond (startOff sendCap : Nat)
  | commit (startOff sendCap : Nat) (efault : Bool)
  | done (result : Option Nat)
  deriving DecidableEq, Repr

structure Reader where
  len : Nat
  pc : ReadPc
  /-- What has been copied to `rdata`. -/
  rdata : List Byte
  -- History: how many bytes were committed when `write_commit` was loaded, and
  -- how many were reserved by the reads before this one.
  seen : Nat
  pos : Nat
  deriving DecidableEq, Repr

structure Writer where
  wdata : List Byte
  pc : WritePc
  -- History: how many bytes were released when `read_commit` was loaded, and how
  -- many were reserved by the writes before this one.
  seen : Nat
  pos : Nat
  deriving DecidableEq, Repr

inductive Thread where
  | reader (r : Reader)
  | writer (w : Writer)
  deriving DecidableEq, Repr

structure State where
  data : Nat → Byte
  readResv : Nat
  readCommit : Nat
  writeResv : Nat
  writeCommit : Nat
  threads : Nat → Thread
  -- History: the reservations in their order, each with its thread and size, the
  -- bytes that the writes reserved space for, and how many bytes were released by
  -- reads and committed by writes.
  reads : List (Nat × Nat)
  writes : List (Nat × Nat)
  stream : List Byte
  released : Nat
  committed : Nat

def recvCap (cap rx tx len : Nat) : Nat := min (wrappingAdd (wrappingSub tx rx) cap % cap) len

def sendCap (cap rx tx len : Nat) : Nat :=
  min (wrappingSub (wrappingAdd (wrappingSub rx tx) cap) 1 % cap) len

/-- `start_off.wrapping_add(n) % cap`. -/
def advance (cap startOff n : Nat) : Nat := wrappingAdd startOff n % cap

/-- `&data[start..stop]`. -/
def slice (data : Nat → Byte) (start stop : Nat) : List Byte :=
  (List.range' start (stop - start)).map data

/-- Copy bytes into the buffer, from `start` on. -/
def copyIn (data : Nat → Byte) (start : Nat) (bytes : List Byte) : Nat → Byte := fun q =>
  if start ≤ q then (bytes[q - start]?).getD (data q) else data q

def State.setThread (s : State) (i : Nat) (t : Thread) : State :=
  { s with threads := Function.update s.threads i t }

/-- How many bytes were reserved. -/
def bytesOf (reservations : List (Nat × Nat)) : Nat := (reservations.map Prod.snd).sum

/-- Where the first of at most two copies ends. -/
def firstEnd (cap startOff n : Nat) : Nat :=
  if advance cap startOff n > startOff then advance cap startOff n else cap

/-- One step of the `read` of thread `i`. -/
def stepReader (cap i : Nat) (r : Reader) (s : State) : Option State :=
  match r.pc with
  | .loadResv => some (s.setThread i (.reader { r with pc := .loadCommit s.readResv }))
  | .loadCommit rx =>
    some (s.setThread i (.reader { r with pc := .reserve rx s.writeCommit, seen := s.committed }))
  | .reserve rx tx =>
    let n := recvCap cap rx tx r.len
    if s.readResv = rx then
      let pc := if n = 0 then .done (some 0) else .copyFirst rx n
      some { s.setThread i (.reader { r with pc := pc, pos := bytesOf s.reads }) with
        readResv := advance cap rx n, reads := s.reads ++ [(i, n)] }
    else some (s.setThread i (.reader { r with pc := .reserve s.readResv tx }))
  | .copyFirst startOff n =>
    let pc := if advance cap startOff n > startOff then .commit startOff n false
      else .copySecond startOff n
    some (s.setThread i
      (.reader { r with pc := pc, rdata := slice s.data startOff (firstEnd cap startOff n) }))
  | .copySecond startOff n =>
    some (s.setThread i (.reader { r with
      pc := .commit startOff n false, rdata :=
        r.rdata ++ slice s.data 0 (advance cap startOff n) }))
  | .commit startOff n efault =>
    if s.readCommit = startOff then
      let result := if efault then none else some n
      some { s.setThread i (.reader { r with pc := .done result }) with
        readCommit := advance cap startOff n, released := s.released + n }
    else some s
  | .done _ => none

/-- One step of the `write` of thread `i`. -/
def stepWriter (cap i : Nat) (w : Writer) (s : State) : Option State :=
  match w.pc with
  | .loadCommit =>
    some (s.setThread i (.writer { w with pc := .loadResv s.readCommit, seen := s.released }))
  | .loadResv rx => some (s.setThread i (.writer { w with pc := .reserve rx s.writeResv }))
  | .reserve rx tx =>
    let n := sendCap cap rx tx w.wdata.length
    if s.writeResv = tx then
      let pc := if n = 0 then .done (some 0) else .copyFirst tx n
      some { s.setThread i (.writer { w with pc := pc, pos := s.stream.length }) with
        writeResv := advance cap tx n, writes := s.writes ++ [(i, n)]
        stream := s.stream ++ w.wdata.take n }
    else some (s.setThread i (.writer { w with pc := .reserve rx s.writeResv }))
  | .copyFirst startOff n =>
    let pc := if advance cap startOff n > startOff then .commit startOff n false
      else .copySecond startOff n
    some { s.setThread i (.writer { w with pc := pc }) with
      data := copyIn s.data startOff (w.wdata.take (firstEnd cap startOff n - startOff)) }
  | .copySecond startOff n =>
    some { s.setThread i (.writer { w with pc := .commit startOff n false }) with
      data := copyIn s.data 0 ((w.wdata.drop (cap - startOff)).take (advance cap startOff n)) }
  | .commit startOff n efault =>
    if s.writeCommit = startOff then
      let result := if efault then none else some n
      some { s.setThread i (.writer { w with pc := .done result }) with
        writeCommit := advance cap startOff n, committed := s.committed + n }
    else some s
  | .done _ => none

/-- A copy to user memory faults after at most `k` bytes. -/
def faultReader (cap i k : Nat) (r : Reader) (s : State) : Option State :=
  match r.pc with
  | .copyFirst startOff n =>
    some (s.setThread i (.reader { r with
      pc := .commit startOff n true
      rdata := (slice s.data startOff (firstEnd cap startOff n)).take k }))
  | .copySecond startOff n =>
    some (s.setThread i (.reader { r with
      pc := .commit startOff n true
      rdata := r.rdata ++ (slice s.data 0 (advance cap startOff n)).take k }))
  | _ => none

/-- A copy from user memory faults after at most `k` bytes. -/
def faultWriter (cap i k : Nat) (w : Writer) (s : State) : Option State :=
  match w.pc with
  | .copyFirst startOff n =>
    some { s.setThread i (.writer { w with pc := .commit startOff n true }) with
      data := copyIn s.data startOff ((w.wdata.take (firstEnd cap startOff n - startOff)).take k) }
  | .copySecond startOff n =>
    some { s.setThread i (.writer { w with pc := .commit startOff n true }) with
      data :=
        copyIn s.data 0 (((w.wdata.drop (cap - startOff)).take (advance cap startOff n)).take k) }
  | _ => none

inductive Event where
  | run (i : Nat)
  | fault (i k : Nat)
  deriving DecidableEq, Repr

def step (cap : Nat) : Event → State → Option State
  | .run i, s =>
    match s.threads i with
    | .reader r => stepReader cap i r s
    | .writer w => stepWriter cap i w s
  | .fault i k, s =>
    match s.threads i with
    | .reader r => faultReader cap i k r s
    | .writer w => faultWriter cap i k w s

/-- A fifo that is empty, and calls that have not begun. -/
structure State.Fresh (s : State) : Prop where
  indices : s.readResv = 0 ∧ s.readCommit = 0 ∧ s.writeResv = 0 ∧ s.writeCommit = 0
  history : s.reads = [] ∧ s.writes = [] ∧ s.stream = [] ∧ s.released = 0 ∧ s.committed = 0
  threads : ∀ i, (∃ len, s.threads i = .reader ⟨len, .loadResv, [], 0, 0⟩) ∨
    ∃ wdata, s.threads i = .writer ⟨wdata, .loadCommit, 0, 0⟩

end BadgerOS.Fifo
