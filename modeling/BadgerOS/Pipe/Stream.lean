import BadgerOS.Pipe.Ends

/-!
# The bytes in a pipe

`FifoShared::close` drops the buffer when one kind of end is gone, with whatever is in it.
Unless that happens to unread bytes, reads get what writes put in, in its order.
-/

namespace BadgerOS.Pipe

open Interleaving Fifo Option List

/-- What is in the buffer. -/
def State.Unread (s : State) (bytes : List Byte) : Prop :=
  match s.buffer with
  | none => bytes = []
  | some ring => ring.Contents defaultSize bytes

/-- All bytes that were accepted have been delivered or are in the buffer. -/
def State.Balanced (s : State) : Prop :=
  ∃ unread, s.Unread unread ∧ s.accepted = s.delivered ++ unread

def Stage.destroys : Stage → Bool
  | .closeBuffer _ => true
  | _ => false

/-- A buffer is empty when it is dropped, and user memory does not fault. -/
def Kept (s : State) : Event → Prop
  | .file f => ∀ file ∈ s.files[f]?, file.stage.destroys = true → s.readCount = 0 ∨
    s.writeCount = 0 → s.readAvl = 0
  | .fault .. => False
  | _ => True

instance (s : State) : (e : Event) → Decidable (Kept s e)
  | .file f => inferInstanceAs (Decidable (∀ file ∈ s.files[f]?, file.stage.destroys = true →
    _ → s.readAvl = 0))
  | .fault .. => .isFalse id
  | .open _ | .setFlags .. | .drop _ | .wakeFile _ | .signalFile _ | .read .. | .write
    .. | .call _ | .wake _
  | .signal _ => .isTrue trivial

section Steps

variable {s s' : State} {file file' : File} {f : Nat} {bytes : List Byte}

theorem State.Balanced.same (balanced : s.Balanced) (buffer : s'.buffer = s.buffer)
    (accepted : s'.accepted = s.accepted)
    (delivered : s'.delivered = s.delivered) : s'.Balanced := by
  obtain ⟨unread, here, eq⟩ := balanced
  refine ⟨unread, ?_, ?_⟩
  · simpa only [State.Unread, buffer] using here
  · rw [accepted, delivered, eq]

theorem State.Unread.readAvl (unread : s.Unread bytes) : s.readAvl = bytes.length := by
  unfold State.Unread at unread
  unfold State.readAvl
  cases buffer : s.buffer with
  | none =>
    simp only [buffer] at unread
    subst unread
    rfl
  | some ring =>
    simp only [buffer] at unread
    exact unread.readAvl (by decide) (by decide)

section

variable (balanced : s.Balanced)
include balanced

theorem Reading.transfer_balanced (r : Reading) : (r.transfer s).2.Balanced := by
  obtain ⟨unread, here, eq⟩ := balanced
  unfold State.Unread at here
  cases buffer : s.buffer with
  | none =>
    simp only [Reading.transfer, buffer]
    exact ⟨unread, by simpa only [State.Unread, buffer] using here, eq⟩
  | some ring =>
    simp only [buffer] at here
    obtain ⟨copied, after⟩ := here.read (by decide) (by decide) r.len
    simp only [Reading.transfer, buffer]
    refine ⟨unread.drop r.len, after, ?_⟩
    rw [copied, append_assoc, take_append_drop, eq]

theorem Writing.transfer_balanced (w : Writing) : (w.transfer s).2.Balanced := by
  obtain ⟨unread, here, eq⟩ := balanced
  unfold State.Unread at here
  cases buffer : s.buffer with
  | none =>
    simp only [Writing.transfer, buffer]
    exact ⟨unread, by simpa only [State.Unread, buffer] using here, eq⟩
  | some ring =>
    simp only [buffer] at here
    obtain ⟨-, after⟩ := here.write (by decide) (by decide) w.wdata
    simp only [Writing.transfer, buffer]
    refine ⟨_, after, ?_⟩
    rw [eq, append_assoc]

theorem Op.next_balanced {op op' : Op} (goes : op.next s = some (op', s')) : s'.Balanced := by
  obtain ⟨r, rfl⟩ | ⟨w, rfl⟩ | ⟨n, rfl⟩ := Op.next_cases goes
  · exact r.transfer_balanced balanced
  · exact w.transfer_balanced balanced
  · exact balanced

theorem State.Balanced.create : s.create.Balanced := by
  obtain ⟨unread, here, eq⟩ := balanced
  refine ⟨unread, ?_, eq⟩
  unfold State.Unread at here ⊢
  cases buffer : s.buffer with
  | none =>
    simp only [buffer] at here
    subst here
    by_cases both : s.readCount ≠ 0 ∧ s.writeCount ≠ 0
    · simp only [State.create, buffer, both, isNone_none, ne_eq, not_false_eq_true,
        and_self, if_true]
      exact .new defaultSize
    · simp [State.create, buffer, both]
  | some ring =>
    simp only [buffer] at here
    simp only [State.create, buffer, isNone_some, Bool.false_eq_true, and_false, if_false]
    exact here

theorem State.Balanced.destroy (kept : s.readCount = 0 ∨ s.writeCount = 0 → s.readAvl = 0) :
    s.destroy.Balanced := by
  obtain ⟨unread, here, eq⟩ := balanced
  by_cases gone : s.readCount = 0 ∨ s.writeCount = 0
  · have empty := kept gone
    rw [here.readAvl] at empty
    cases length_eq_zero_iff.mp empty
    refine ⟨[], ?_, eq⟩
    simp only [State.destroy, if_pos gone, State.Unread]
  · refine ⟨unread, ?_, eq⟩
    simp only [State.destroy, if_neg gone, State.Unread]
    exact here

theorem File.next_balanced (goes : file.next s = some (file', s'))
    (kept : file.stage.destroys = true → s.readCount = 0 ∨ s.writeCount = 0 → s.readAvl = 0) :
    s'.Balanced := by
  obtain ⟨stage, flags⟩ := file
  cases stage with
  | idle | gone => cases goes
  | openBuffer new old held =>
    obtain ⟨-, goes⟩ := ite_none_right_eq_some.mp goes
    cases goes
    exact balanced.create.same rfl rfl rfl
  | closeBuffer new =>
    obtain ⟨-, goes⟩ := ite_none_right_eq_some.mp goes
    cases goes
    exact balanced.destroy (kept rfl)
  | openBlock new =>
    obtain ⟨-, goes⟩ := ite_none_right_eq_some.mp goes
    cases goes
    exact balanced.same rfl rfl rfl
  | openWait new blocked =>
    obtain ⟨-, goes⟩ := ite_none_left_eq_some.mp goes
    cases goes
    exact balanced
  | _ =>
    cases goes
    exact balanced.same rfl rfl rfl

theorem State.Balanced.step {e : Event} (kept : Kept s e) (run : Pipe.step e s = some s') :
    s'.Balanced := by
  cases e with
  | «open» flags =>
    obtain ⟨-, run⟩ := ite_none_right_eq_some.mp run
    cases run
    exact balanced.same rfl rfl rfl
  | setFlags f flags | drop f =>
    obtain ⟨old, -, run⟩ := bind_eq_some_iff.mp run
    obtain ⟨-, run⟩ := ite_none_right_eq_some.mp run
    cases run
    exact balanced.same rfl rfl rfl
  | file f =>
    obtain ⟨file, here, run⟩ := bind_eq_some_iff.mp run
    obtain ⟨⟨file', s₁⟩, goes, run⟩ := bind_eq_some_iff.mp run
    cases run
    exact (File.next_balanced balanced goes (kept file here)).same rfl rfl rfl
  | wakeFile f | signalFile f =>
    obtain ⟨⟨stage, flags⟩, here, run⟩ := bind_eq_some_iff.mp run
    split at run
    · cases run
      exact balanced.same rfl rfl rfl
    · cases run
  | read f len | write f wdata =>
    obtain ⟨flags, -, run⟩ := bind_eq_some_iff.mp run
    cases run
    exact balanced.same rfl rfl rfl
  | call c =>
    obtain ⟨call, -, run⟩ := bind_eq_some_iff.mp run
    obtain ⟨⟨op, s₁⟩, goes, run⟩ := bind_eq_some_iff.mp run
    cases run
    exact (Op.next_balanced balanced goes).same rfl rfl rfl
  | wake c | signal c =>
    obtain ⟨call, -, run⟩ := bind_eq_some_iff.mp run
    obtain ⟨op, -, run⟩ := bind_eq_some_iff.mp run
    cases run
    exact balanced.same rfl rfl rfl
  | fault c k => cases kept

end

end Steps

theorem balanced_start (o : Origin) : (start o).Balanced := by
  cases o with
  | named => exact ⟨[], rfl, rfl⟩
  | pipe => exact ⟨[], .new defaultSize, rfl⟩

/-- Reads get a first part of what was accepted, and the rest can still be read. -/
theorem data_kept {o : Origin} {s : State} (reached : Reaches step Kept (start o) s) : s.delivered
    <+: s.accepted ∧ (s.delivered ≠ s.accepted → ∃ ring, s.buffer = some ring ∧
      ∀ len, (ring.read defaultSize len).1 = (s.accepted.drop s.delivered.length).take len) := by
  obtain ⟨unread, here, eq⟩ := reached.invariant (balanced_start o) fun kept balanced run =>
    balanced.step kept run
  refine ⟨⟨unread, eq.symm⟩, fun ne => ?_⟩
  unfold State.Unread at here
  cases buffer : s.buffer with
  | none =>
    simp only [buffer] at here
    subst here
    rw [append_nil] at eq
    exact absurd eq.symm ne
  | some ring =>
    simp only [buffer] at here
    refine ⟨ring, rfl, fun len => ?_⟩
    rw [eq, drop_left]
    exact (here.read (by decide) (by decide) len).1

/-! ### When the last writer goes -/

/-- A FIFO is opened for reading and for writing, and a byte is written. -/
def oneByte : List Event :=
  [.open ⟨true, false, true⟩, .file 0, .file 0, .file 0, .open ⟨false, true, true⟩, .file 1,
    .file 1, .file 1, .write 1 [7], .call 0, .call 0]

theorem data_kept_byte : ∃ s ring, Reaches step Kept (start .named) s ∧ s.accepted = [7] ∧
    s.delivered = [] ∧ s.buffer = some ring ∧ (ring.read defaultSize 1).1 = [7] := by
  obtain ⟨s, reached, accepted, delivered⟩ : ∃ s, Reaches step Kept (start .named) s ∧
    s.accepted = [7] ∧
      s.delivered = [] := exists_of_run oneByte (by decide +kernel)
  obtain ⟨ring, buffer, readable⟩ := (data_kept reached).2 (by rw [accepted, delivered]; decide)
  refine ⟨s, ring, reached, accepted, delivered, buffer, ?_⟩
  rw [readable, accepted, delivered]
  rfl

/-- The first file stays open. -/
def FirstStays (_ : State) (e : Event) : Prop := e ≠ .drop 0

instance (s : State) (e : Event) : Decidable (FirstStays s e) :=
  inferInstanceAs (Decidable (e ≠ _))

def writerLeaves : List Event := oneByte ++ [.drop 1, .file 1, .file 1, .file 1]

/-- A reader is there all the time. The byte is gone when the writer has closed its file,
and the next byte that a reader gets was not the first to be accepted. -/
theorem not_data_kept :
    (∃ s, Reaches step FirstStays (start .named) s ∧ s.Settled ∧ s.readers = 1 ∧
    s.quiet 0 ∧ s.quiet 1 ∧
      s.accepted = [7] ∧ s.delivered = [] ∧ s.buffer.isNone) ∧
    (∃ s, Reaches step FirstStays (start .named) s ∧ s.readers = 1 ∧ s.accepted = [7, 9] ∧
    s.delivered = [9]) := by
  constructor
  · exact exists_of_run writerLeaves (by decide +kernel)
  · exact exists_of_run (writerLeaves ++ [.open ⟨false, true, true⟩, .file 2, .file 2, .file 2,
      .write 2 [9], .call 1, .call 1, .read 0 1, .call 2, .call 2]) (by decide +kernel)

end BadgerOS.Pipe
