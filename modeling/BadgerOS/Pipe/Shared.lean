import BadgerOS.Util.Queue
import BadgerOS.Types

/-!
# Pipes

`filesystem/fifo.rs` and `pipe` of `filesystem/mod.rs`: one `FifoShared`, the
`FifoFile`s that were made for it, and the calls of `read` and `write` on them. An
operation on a count, on the lock of the buffer or on the buffer is one step. Waiting
lists appear as the events `wake` and `signal`. A failed assertion leaves no next state.
-/

namespace BadgerOS.Pipe

open Fifo

abbrev u32Size : Nat := 4294967296

def fetchAdd (n : Nat) : Nat := (n + 1) % u32Size

def fetchSub (n : Nat) : Nat := (n + (u32Size - 1)) % u32Size

/-- `Fifo::DEFAULT_SIZE`. -/
abbrev defaultSize : Nat := 2048

/-- The bits of the flags of a `FifoFile` that its code looks at. -/
structure Flags where
  readOnly : Bool
  writeOnly : Bool
  nonblock : Bool
  deriving DecidableEq, Repr

/-- Where a `FifoFile` is in `new`, `set_flags` or `drop`. In `set_flags` the `old` flags
are given up when the `new` ones have been opened. -/
inductive Stage where
  | idle
  | openRead (new : Flags) (old : Option Flags)
  | openWrite (new : Flags) (old : Option Flags)
  | openBlock (new : Flags)
  | openWait (new : Flags) (blocked : Bool)
  | openUndo (new : Flags) (held : Bool)
  | openUndoWrite (new : Flags) (held : Bool)
  | openBuffer (new : Flags) (old : Option Flags) (held : Bool)
  | closeRead (old : Flags) (new : Option Flags)
  | closeWrite (old : Flags) (destroy : Bool) (new : Option Flags)
  | closeBuffer (new : Option Flags)
  /-- It could not be made, or it has been dropped. -/
  | gone
  deriving DecidableEq, Repr

structure File where
  stage : Stage
  flags : Flags
  deriving DecidableEq, Repr

/-- A round of `FifoFile::read`: what is still to be read, and what was in the rounds before. -/
structure Reading where
  first : Bool
  nonblock : Bool
  len : Nat
  rlen : Nat
  deriving DecidableEq, Repr

/-- A round of `FifoFile::write`. -/
structure Writing where
  first : Bool
  nonblock : Bool
  wdata : List Byte
  wlen : Nat
  deriving DecidableEq, Repr

/-- The next step of a call of `read` or `write`. -/
inductive Op where
  | readBlock (r : Reading)
  | readWait (r : Reading)
  | readLock (r : Reading)
  | readBuffer (r : Reading)
  | writeCheck (w : Writing)
  | writeBlock (w : Writing)
  | writeWait (w : Writing)
  | writeLock (w : Writing)
  | writeBuffer (w : Writing)
  | done (result : Except Errno Nat)

structure Call where
  file : Nat
  op : Op

structure State where
  buffer : Option Ring
  readCount : Nat
  writeCount : Nat
  /-- Who has the lock of the buffer. -/
  exclusive : Bool
  shared : Nat
  files : List File
  calls : List Call
  -- History: the bytes that went into buffers and those that were read from them.
  accepted : List Byte
  delivered : List Byte

namespace State

def unlocked (s : State) : Prop := s.exclusive = false ∧ s.shared = 0

instance (s : State) : Decidable s.unlocked := inferInstanceAs (Decidable (_ ∧ _))

def readAvl (s : State) : Nat := (s.buffer.map (Ring.readAvl defaultSize)).getD 0

def writeAvl (s : State) : Nat := (s.buffer.map (Ring.writeAvl defaultSize)).getD 0

/-- The end of `FifoShared::open`, under the lock. -/
def create (s : State) : State :=
  { s with buffer := if s.readCount ≠ 0 ∧ s.writeCount ≠ 0 ∧
    s.buffer.isNone then some Ring.new else s.buffer }

/-- The end of `FifoShared::close`, under the lock. -/
def destroy (s : State) : State :=
  { s with buffer := if s.readCount = 0 ∨ s.writeCount = 0 then none else s.buffer }

end State

/-- The file after `close`. -/
def File.closed (file : File) : Option Flags → File
  | none => { file with stage := .gone }
  | some new => ⟨.idle, new⟩

/-- The next step of `open` or `close`. -/
def File.next (s : State) (file : File) : Option (File × State) :=
  match file.stage with
  | .idle | .gone => none
  | .openRead new old =>
    some ({ file with stage := .openWrite new old },
      { s with readCount := if new.readOnly then fetchAdd s.readCount else s.readCount })
  | .openWrite new old =>
    let nonblock := new.nonblock || old.isSome || (new.readOnly && new.writeOnly)
    some ({ file with stage := if nonblock then .openBuffer new old false else .openBlock new },
      { s with writeCount := if new.writeOnly then fetchAdd s.writeCount else s.writeCount })
  | .openBlock new =>
    if s.unlocked then
      -- the lock is kept if the thread has to wait
      let blocked := if new.readOnly then s.writeCount != 0 else s.readCount != 0
      some ({ file with stage := .openWait new blocked }, { s with exclusive := blocked })
    else none
  | .openWait new blocked =>
    if blocked then none else some ({ file with stage := .openBuffer new none false }, s)
  | .openUndo new held =>
    some ({ file with stage := .openUndoWrite new held },
      { s with readCount := if new.readOnly then fetchSub s.readCount else s.readCount })
  | .openUndoWrite new held =>
    some ({ file with stage := .gone }, { s with
        writeCount := if new.writeOnly then fetchSub s.writeCount else s.writeCount
        exclusive := if held then false else s.exclusive })
  | .openBuffer new old held =>
    if held = true ∨ s.unlocked then
      let file := match old with
        | none => ⟨.idle, new⟩
        | some old => { file with stage := .closeRead old (some new) }
      some (file, { s.create with exclusive := false })
    else none
  | .closeRead old new =>
    some ({ file with stage := .closeWrite old (old.readOnly && s.readCount == 1) new },
      { s with readCount := if old.readOnly then fetchSub s.readCount else s.readCount })
  | .closeWrite old destroy new =>
    let destroy := destroy || (old.writeOnly && s.writeCount == 1)
    some (if destroy then { file with stage := .closeBuffer new } else file.closed new,
      { s with writeCount := if old.writeOnly then fetchSub s.writeCount else s.writeCount })
  | .closeBuffer new => if s.unlocked then some (file.closed new, s.destroy) else none

/-- The rest of `FifoFile::read` after a round. -/
def Reading.after (r : Reading) : Except Errno Nat → Op
  | .ok n =>
    if 0 < r.len - n then .readLock ⟨false, true, r.len - n, r.rlen + n⟩
      else .done (.ok (r.rlen + n))
  | .error e => .done (if r.first then .error e else .ok r.rlen)

/-- The rest of `FifoFile::write` after a round. -/
def Writing.after (w : Writing) : Except Errno Nat → Op
  | .ok n =>
    if 0 < (w.wdata.drop n).length then .writeCheck ⟨false, w.nonblock, w.wdata.drop n,
      w.wlen + n⟩
    else .done (.ok (w.wlen + n))
  | .error e => .done (if w.first ∨ e = .epipe then .error e else .ok w.wlen)

/-- What the code makes of the count of a transfer. -/
def transferred (nonblock : Bool) (n : Nat) : Except Errno Nat :=
  if n = 0 ∧ nonblock then .error .eagain else .ok n

/-- The transfer of a round of `read`. -/
def Reading.transfer (r : Reading) (s : State) : Op × State :=
  match s.buffer with
  | none => (r.after (.error .eagain), { s with shared := s.shared - 1 })
  | some ring =>
    let read := ring.read defaultSize r.len
    (r.after (transferred r.nonblock read.1.length),
      { s with shared := s.shared - 1, buffer := some read.2, delivered := s.delivered ++ read.1 })

/-- The transfer of a round of `write`. -/
def Writing.transfer (w : Writing) (s : State) : Op × State :=
  match s.buffer with
  | none => (w.after (.error .eagain), { s with shared := s.shared - 1 })
  | some ring =>
    let written := ring.write defaultSize w.wdata w.wdata.length
    (w.after (transferred w.nonblock written.1),
      { s with
        shared := s.shared - 1
        buffer := some written.2
        accepted := s.accepted ++ w.wdata.take written.1 })

def Writing.lock (w : Writing) : Op := if w.nonblock then .writeLock w else .writeBlock w

/-- The next step of `read` or `write`. -/
def Op.next (s : State) : Op → Option (Op × State)
  | .readBlock r =>
    if s.exclusive then none
    else if 0 < s.readAvl then some (.readBuffer r, { s with shared := s.shared + 1 })
    else some (.readWait r, s)
  | .readLock r => if s.exclusive then none else some
    (.readBuffer r, { s with shared := s.shared + 1 })
  | .readBuffer r => some (r.transfer s)
  | .writeCheck w => some (if s.readCount = 0 then w.after (.error .epipe) else w.lock, s)
  | .writeBlock w =>
    if s.exclusive then none
    else if 0 < s.writeAvl then some (.writeBuffer w, { s with shared := s.shared + 1 })
    else some (.writeWait w, s)
  | .writeLock w => if s.exclusive then none else some
    (.writeBuffer w, { s with shared := s.shared + 1 })
  | .writeBuffer w => some (w.transfer s)
  | .readWait _ | .writeWait _ | .done _ => none

/-- A call changes more than the lock in its buffer's step alone. -/
theorem Op.next_cases {op op' : Op} {s s' : State} (goes : op.next s = some (op', s')) :
    (∃ r : Reading, (r.transfer s).2 = s') ∨ (∃ w : Writing, (w.transfer s).2 = s') ∨
    ∃ n, { s with shared := n } = s' := by
  cases op with
  | readBuffer r => exact .inl ⟨r, congrArg Prod.snd (Option.some.inj goes)⟩
  | writeBuffer w => exact .inr (.inl ⟨w, congrArg Prod.snd (Option.some.inj goes)⟩)
  | readBlock r | writeBlock w =>
    obtain ⟨-, goes⟩ := Option.ite_none_left_eq_some.mp goes
    split at goes <;> cases goes <;> exact .inr (.inr ⟨_, rfl⟩)
  | readLock r | writeLock w =>
    obtain ⟨-, goes⟩ := Option.ite_none_left_eq_some.mp goes
    cases goes
    exact .inr (.inr ⟨_, rfl⟩)
  | writeCheck w =>
    cases goes
    exact .inr (.inr ⟨_, rfl⟩)
  | readWait r | writeWait w | done result => cases goes

def Op.wake : Op → Option Op
  | .readWait r => some (.readLock r)
  | .writeWait w => some (.writeLock w)
  | _ => none

def Op.signal : Op → Option Op
  | .readBlock r | .readWait r => some (r.after (.error .eintr))
  | .writeBlock w | .writeWait w => some (w.after (.error .eintr))
  | _ => none

/-- The user memory faults after `k` bytes. The fifo's indices move all the same. -/
def Op.fault (k : Nat) (s : State) : Op → Option (Op × State)
  | .readBuffer r => do
    let ring ← s.buffer
    let read := ring.read defaultSize r.len
    if k < read.1.length then
      some (r.after (.error .efault), { s with shared := s.shared - 1, buffer := some read.2 })
    else none
  | .writeBuffer w => do
    let ring ← s.buffer
    let written := ring.write defaultSize w.wdata k
    if k < written.1 then
      some (w.after (.error .efault), { s with shared := s.shared - 1, buffer := some written.2 })
    else none
  | _ => none

inductive Event where
  /-- A FIFO is opened by its name. -/
  | open (flags : Flags)
  | setFlags (f : Nat) (flags : Flags)
  | drop (f : Nat)
  | file (f : Nat)
  | wakeFile (f : Nat)
  | signalFile (f : Nat)
  | read (f len : Nat)
  | write (f : Nat) (wdata : List Byte)
  | call (c : Nat)
  | wake (c : Nat)
  | signal (c : Nat)
  | fault (c k : Nat)
  deriving DecidableEq, Repr

namespace State

def setFile (s : State) (f : Nat) (file : File) : State := { s with files := s.files.set f file }

def setOp (s : State) (c : Nat) (call : Call) (op : Op) : State :=
  { s with calls := s.calls.set c { call with op } }

/-- No `read` or `write` of the file is under way. -/
def quiet (s : State) (f : Nat) : Bool :=
  s.calls.all fun call => call.file != f || match call.op with | .done _ => true | _ => false

/-- A file that exists and that is not in `set_flags` or `drop`. -/
def idleFile (s : State) (f : Nat) : Option Flags := do
  let file ← s.files[f]?
  if file.stage = .idle then some file.flags else none

end State

/-- How `FifoFile::read` begins. -/
def startRead (flags : Flags) (len : Nat) : Op :=
  if flags.readOnly then
    let r : Reading := ⟨true, flags.nonblock, len, 0⟩
    if flags.nonblock then .readLock r else .readBlock r
  else .done (.error .ebadf)

/-- How `FifoFile::write` begins: the first round does not look at `read_count`. -/
def startWrite (flags : Flags) (wdata : List Byte) : Op :=
  if flags.writeOnly then Writing.lock ⟨true, flags.nonblock, wdata, 0⟩
    else .done (.error .ebadf)

def step : Event → State → Option State
  | .open flags, s =>
    if flags.readOnly || flags.writeOnly then
      some { s with files := s.files ++ [⟨.openRead flags none, flags⟩] }
    else none
  | .setFlags f flags, s => do
    let old ← s.idleFile f
    if s.quiet f && (flags.readOnly || flags.writeOnly) then
      some (s.setFile f ⟨.openRead flags (some old), old⟩)
    else none
  | .drop f, s => do
    let old ← s.idleFile f
    if s.quiet f then some (s.setFile f ⟨.closeRead old none, old⟩) else none
  | .file f, s => do
    let file ← s.files[f]?
    let (file, s) ← file.next s
    some (s.setFile f file)
  | .wakeFile f, s => do
    let file ← s.files[f]?
    match file.stage with
    | .openWait new true => some (s.setFile f { file with stage := .openBuffer new none true })
    | _ => none
  | .signalFile f, s => do
    let file ← s.files[f]?
    match file.stage with
    | .openWait new held => some (s.setFile f { file with stage := .openUndo new held })
    | _ => none
  | .read f len, s => do
    let flags ← s.idleFile f
    some { s with calls := s.calls ++ [⟨f, startRead flags len⟩] }
  | .write f wdata, s => do
    let flags ← s.idleFile f
    some { s with calls := s.calls ++ [⟨f, startWrite flags wdata⟩] }
  | .call c, s => do
    let call ← s.calls[c]?
    let (op, s) ← call.op.next s
    some (s.setOp c call op)
  | .wake c, s => do
    let call ← s.calls[c]?
    let op ← call.op.wake
    some (s.setOp c call op)
  | .signal c, s => do
    let call ← s.calls[c]?
    let op ← call.op.signal
    some (s.setOp c call op)
  | .fault c k, s => do
    let call ← s.calls[c]?
    let (op, s) ← call.op.fault k s
    some (s.setOp c call op)

/-- `FifoShared::new`. -/
def empty : State := ⟨none, 0, 0, false, 0, [], [], [], []⟩

/-- `open` that does not wait. -/
def State.opened (s : State) (flags : Flags) : State :=
  State.create { s with
    readCount := if flags.readOnly then fetchAdd s.readCount else s.readCount
    writeCount := if flags.writeOnly then fetchAdd s.writeCount else s.writeCount }

/-- `FifoFile::new` that does not wait. -/
def State.made (s : State) (flags : Flags) : State :=
  { s.opened flags with files := s.files ++ [⟨.idle, flags⟩] }

/-- The shared data of a FIFO that has a name, or of an unnamed `pipe`. With no
`NONBLOCK` the call of `pipe` would wait to open the write end. -/
inductive Origin where
  | named
  | pipe
  deriving DecidableEq, Repr

def start : Origin → State
  | .named => empty
  | .pipe => ((empty.opened ⟨true, true, true⟩).made ⟨false, true, true⟩).made
    ⟨true, false, true⟩

end BadgerOS.Pipe
