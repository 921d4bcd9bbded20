import BadgerOS.Pipe.Shared

/-!
# The ends of a pipe

What `read_count` and `write_count` are in terms of the files. `pipe` itself opens both
ends once, beside the two files that it makes, and nothing ever closes that.
-/

namespace BadgerOS.Pipe

open Interleaving Option File

/-- The reading ends that a file accounts for in `read_count`. -/
def File.reads (file : File) : Nat :=
  match file.stage with
  | .idle => file.flags.readOnly.toNat
  | .openRead _ old => (old.any Flags.readOnly).toNat
  | .openWrite new old | .openBuffer new old _ =>
    (old.any Flags.readOnly).toNat + new.readOnly.toNat
  | .openBlock new | .openWait new _ | .openUndo new _ => new.readOnly.toNat
  | .closeRead old new => (new.any Flags.readOnly).toNat + old.readOnly.toNat
  | .closeWrite _ _ new | .closeBuffer new => (new.any Flags.readOnly).toNat
  | .openUndoWrite .. | .gone => 0

/-- The writing ends that a file accounts for in `write_count`. -/
def File.writes (file : File) : Nat :=
  match file.stage with
  | .idle => file.flags.writeOnly.toNat
  | .openRead _ old | .openWrite _ old => (old.any Flags.writeOnly).toNat
  | .openBuffer new old _ => (old.any Flags.writeOnly).toNat + new.writeOnly.toNat
  | .openBlock new | .openWait new _ | .openUndo new _ | .openUndoWrite new _ => new.writeOnly.toNat
  | .closeRead old new | .closeWrite old _ new =>
    (new.any Flags.writeOnly).toNat + old.writeOnly.toNat
  | .closeBuffer new => (new.any Flags.writeOnly).toNat
  | .gone => 0

/-- The ends that no file accounts for. -/
def Origin.extra : Origin → Nat
  | .named => 0
  | .pipe => 1

structure Counts (o : Origin) (s : State) : Prop where
  reads : s.readCount = (o.extra + (s.files.map File.reads).sum) % u32Size
  writes : s.writeCount = (o.extra + (s.files.map File.writes).sum) % u32Size

variable {n k k' : Nat} {bit : Bool} {op op' : Op} {s : State}

section Steps

variable {o : Origin} {s' : State} {file file' : File} {f : Nat}

theorem fetchAdd_mod (eq : n = k % u32Size) (more : k' = k + bit.toNat) :
    (if bit then fetchAdd n else n) = k' % u32Size := by
  cases bit <;> simp only [fetchAdd, u32Size, Bool.toNat, cond, if_true, Bool.false_eq_true,
    if_false] at * <;> omega

theorem fetchSub_mod (eq : n = k % u32Size) (less : k = k' + bit.toNat) :
    (if bit then fetchSub n else n) = k' % u32Size := by
  cases bit <;> simp only [fetchSub, u32Size, Bool.toNat, cond, if_true, Bool.false_eq_true,
    if_false] at * <;> omega

theorem File.closed_reads (file : File) (new : Option Flags) :
    (file.closed new).reads = (new.any Flags.readOnly).toNat := by
  cases new <;> rfl

theorem File.closed_writes (file : File) (new : Option Flags) :
    (file.closed new).writes = (new.any Flags.writeOnly).toNat := by
  cases new <;> rfl

/-- A step moves one end between the file and the count. -/
theorem File.next_counts (goes : file.next s = some (file', s')) : s'.files = s.files ∧
    (∀ {base}, s.readCount = (base + file.reads) % u32Size →
      s'.readCount = (base + file'.reads) % u32Size) ∧
    (∀ {base}, s.writeCount = (base + file.writes) % u32Size →
      s'.writeCount = (base + file'.writes) % u32Size) := by
  obtain ⟨stage, flags⟩ := file
  cases stage with
  | idle | gone => cases goes
  | openRead new old =>
    cases goes
    refine ⟨rfl, fun eq => fetchAdd_mod eq ?_, fun eq => eq⟩
    simp only [reads]
    omega
  | openWrite new old =>
    cases goes
    refine ⟨rfl, fun eq => ?_, fun eq => fetchAdd_mod eq ?_⟩
    · rw [eq]
      split <;> simp_all [reads]
    · split <;> simp_all [writes, Nat.add_assoc]
  | openBlock new =>
    obtain ⟨-, goes⟩ := ite_none_right_eq_some.mp goes
    cases goes
    exact ⟨rfl, fun eq => eq, fun eq => eq⟩
  | openWait new blocked =>
    obtain ⟨-, goes⟩ := ite_none_left_eq_some.mp goes
    cases goes
    exact ⟨rfl, fun eq => by simpa [reads] using eq, fun eq => by simpa [writes] using eq⟩
  | openUndo new held =>
    cases goes
    exact ⟨rfl, fun eq => fetchSub_mod eq rfl, fun eq => eq⟩
  | openUndoWrite new held =>
    cases goes
    exact ⟨rfl, fun eq => eq, fun eq => fetchSub_mod eq rfl⟩
  | openBuffer new old held =>
    obtain ⟨-, goes⟩ := ite_none_right_eq_some.mp goes
    cases goes
    refine ⟨rfl, fun eq => eq.trans ?_, fun eq => eq.trans ?_⟩
    · cases old <;> simp [reads, Nat.add_comm]
    · cases old <;> simp [writes, Nat.add_comm]
  | closeRead old new =>
    cases goes
    refine ⟨rfl, fun eq => fetchSub_mod eq ?_, fun eq => eq⟩
    simp only [reads]
    omega
  | closeWrite old destroy new =>
    cases goes
    refine ⟨rfl, fun eq => eq.trans ?_, fun eq => fetchSub_mod eq ?_⟩
    · split
      · rfl
      · rw [closed_reads]
        rfl
    · split
      · simp only [writes]
        omega
      · rw [closed_writes]
        simp only [writes]
        omega
  | closeBuffer new =>
    obtain ⟨-, goes⟩ := ite_none_right_eq_some.mp goes
    cases goes
    refine ⟨rfl, fun eq => eq.trans ?_, fun eq => eq.trans ?_⟩
    · rw [closed_reads]
      rfl
    · rw [closed_writes]
      rfl

theorem Counts.setFile {s₁ : State} (counts : Counts o s) (here : s.files[f]? = some file)
    (files : s₁.files = s.files)
    (reads : ∀ {base}, s.readCount = (base + file.reads) % u32Size →
      s₁.readCount = (base + file'.reads) % u32Size)
    (writes : ∀ {base}, s.writeCount = (base + file.writes) % u32Size →
      s₁.writeCount = (base + file'.writes) % u32Size) : Counts o (s₁.setFile f file') := by
  obtain ⟨readCount, writeCount⟩ := counts
  constructor
  · have sum := sum_set (y := file') File.reads here
    have part := le_sum File.reads here
    have rest : o.extra + (s.files.map File.reads).sum =
        o.extra + ((s.files.map File.reads).sum - file.reads) + file.reads := by omega
    simp only [State.setFile, files]
    rw [reads (readCount.trans (by rw [rest]))]
    congr 1
    omega
  · have sum := sum_set (y := file') File.writes here
    have part := le_sum File.writes here
    have rest : o.extra + (s.files.map File.writes).sum =
        o.extra + ((s.files.map File.writes).sum - file.writes) + file.writes := by omega
    simp only [State.setFile, files]
    rw [writes (writeCount.trans (by rw [rest]))]
    congr 1
    omega

theorem idleFile_eq {flags : Flags} (idle : s.idleFile f = some flags) :
    s.files[f]? = some ⟨.idle, flags⟩ := by
  obtain ⟨⟨stage, flags'⟩, here, idle⟩ := bind_eq_some_iff.mp idle
  obtain ⟨eq, idle⟩ := ite_none_right_eq_some.mp idle
  cases idle
  rw [here]
  exact congrArg (fun stage => some (mk stage flags')) eq

/-- What calls of `read` and `write` leave alone. -/
def State.SameEnds (s s' : State) : Prop :=
  s'.files = s.files ∧ s'.readCount = s.readCount ∧ s'.writeCount = s.writeCount

theorem Reading.transfer_ends (r : Reading) (s : State) : s.SameEnds (r.transfer s).2 := by
  cases eq : s.buffer <;> simp only [Reading.transfer, eq] <;> exact ⟨rfl, rfl, rfl⟩

theorem Writing.transfer_ends (w : Writing) (s : State) : s.SameEnds (w.transfer s).2 := by
  cases eq : s.buffer <;> simp only [Writing.transfer, eq] <;> exact ⟨rfl, rfl, rfl⟩

theorem Op.next_ends (goes : op.next s = some (op', s')) : s.SameEnds s' := by
  obtain ⟨r, rfl⟩ | ⟨w, rfl⟩ | ⟨n, rfl⟩ := Op.next_cases goes
  · exact r.transfer_ends s
  · exact w.transfer_ends s
  · exact ⟨rfl, rfl, rfl⟩

theorem Op.next_calls (goes : op.next s = some (op', s')) : s'.calls = s.calls := by
  obtain ⟨r, rfl⟩ | ⟨w, rfl⟩ | ⟨n, rfl⟩ := Op.next_cases goes
  · cases eq : s.buffer <;> simp only [Reading.transfer, eq]
  · cases eq : s.buffer <;> simp only [Writing.transfer, eq]
  · rfl

theorem Op.fault_calls (goes : op.fault k s = some (op', s')) : s'.calls = s.calls := by
  cases op with
  | readBuffer r | writeBuffer w =>
    obtain ⟨ring, -, goes⟩ := bind_eq_some_iff.mp goes
    obtain ⟨-, goes⟩ := ite_none_right_eq_some.mp goes
    cases goes
    rfl
  | _ => cases goes

theorem Op.fault_ends (goes : op.fault k s = some (op', s')) : s.SameEnds s' := by
  cases op with
  | readBuffer r | writeBuffer w =>
    obtain ⟨ring, -, goes⟩ := bind_eq_some_iff.mp goes
    obtain ⟨-, goes⟩ := ite_none_right_eq_some.mp goes
    cases goes
    exact ⟨rfl, rfl, rfl⟩
  | _ => cases goes

theorem Counts.same (counts : Counts o s) (same : s.SameEnds s') : Counts o s' := by
  obtain ⟨files, reads, writes⟩ := same
  constructor
  · rw [reads, files]
    exact counts.reads
  · rw [writes, files]
    exact counts.writes

theorem Counts.step {e : Event} (counts : Counts o s) (run : Pipe.step e s = some s') :
    Counts o s' := by
  cases e with
  | «open» flags =>
    obtain ⟨-, run⟩ := ite_none_right_eq_some.mp run
    cases run
    constructor
    · simpa [File.reads] using counts.reads
    · simpa [File.writes] using counts.writes
  | setFlags f flags =>
    obtain ⟨old, idle, run⟩ := bind_eq_some_iff.mp run
    obtain ⟨-, run⟩ := ite_none_right_eq_some.mp run
    cases run
    exact counts.setFile (idleFile_eq idle) rfl (fun eq => eq) (fun eq => eq)
  | drop f =>
    obtain ⟨old, idle, run⟩ := bind_eq_some_iff.mp run
    obtain ⟨-, run⟩ := ite_none_right_eq_some.mp run
    cases run
    refine counts.setFile (idleFile_eq idle) rfl (fun eq => eq.trans ?_) (fun eq => eq.trans ?_)
    · simp [File.reads]
    · simp [File.writes]
  | file f =>
    obtain ⟨file, here, run⟩ := bind_eq_some_iff.mp run
    obtain ⟨⟨file', s₁⟩, goes, run⟩ := bind_eq_some_iff.mp run
    cases run
    obtain ⟨files, reads, writes⟩ := next_counts goes
    exact counts.setFile here files reads writes
  | wakeFile f =>
    obtain ⟨⟨stage, flags⟩, here, run⟩ := bind_eq_some_iff.mp run
    cases stage with
    | openWait new held =>
      cases held with
      | true =>
        cases run
        refine counts.setFile here rfl (fun eq => eq.trans ?_) (fun eq => eq.trans ?_)
        · simp [File.reads]
        · simp [File.writes]
      | false => cases run
    | _ => cases run
  | signalFile f =>
    obtain ⟨⟨stage, flags⟩, here, run⟩ := bind_eq_some_iff.mp run
    cases stage with
    | openWait new held =>
      cases run
      exact counts.setFile here rfl (fun eq => eq) (fun eq => eq)
    | _ => cases run
  | read f len | write f wdata =>
    obtain ⟨flags, -, run⟩ := bind_eq_some_iff.mp run
    cases run
    exact counts.same ⟨rfl, rfl, rfl⟩
  | call c =>
    obtain ⟨call, -, run⟩ := bind_eq_some_iff.mp run
    obtain ⟨⟨op, s₁⟩, goes, run⟩ := bind_eq_some_iff.mp run
    cases run
    exact (counts.same (Op.next_ends goes)).same ⟨rfl, rfl, rfl⟩
  | wake c | signal c =>
    obtain ⟨call, -, run⟩ := bind_eq_some_iff.mp run
    obtain ⟨op, -, run⟩ := bind_eq_some_iff.mp run
    cases run
    exact counts.same ⟨rfl, rfl, rfl⟩
  | fault c k =>
    obtain ⟨call, -, run⟩ := bind_eq_some_iff.mp run
    obtain ⟨⟨op, s₁⟩, goes, run⟩ := bind_eq_some_iff.mp run
    cases run
    exact (counts.same (Op.fault_ends goes)).same ⟨rfl, rfl, rfl⟩

end Steps

theorem counts_start (o : Origin) : Counts o (start o) := by
  cases o <;> constructor <;> decide

/-- The `FifoFile`s that can read. -/
def State.readers (s : State) : Nat := s.files.countP fun file => file.stage = .idle ∧
    file.flags.readOnly

def State.writers (s : State) : Nat := s.files.countP fun file => file.stage = .idle ∧
    file.flags.writeOnly

/-- No `open`, `set_flags` or `drop` is under way. -/
def State.Settled (s : State) : Prop := ∀ file ∈ s.files, file.stage = .idle ∨
    file.stage = .gone

instance (s : State) : Decidable s.Settled :=
  inferInstanceAs (Decidable (∀ file ∈ s.files, _ ∨ _))

theorem sum_eq_countP {files : List File} {ends : File → Nat} {p : File → Bool}
    (each : ∀ file ∈ files, ends file = (p file).toNat) :
    (files.map ends).sum = files.countP p := by
  induction files with
  | nil => rfl
  | cons file files ih =>
    rw [List.forall_mem_cons] at each
    rw [List.map_cons, List.sum_cons, List.countP_cons, ih each.2, each.1]
    cases p file <;> simp [Nat.add_comm]

theorem Settled.reads (settled : s.Settled) : (s.files.map File.reads).sum = s.readers := by
  apply sum_eq_countP
  intro file mem
  rcases settled file mem with stage | stage <;> simp [File.reads, stage]

theorem Settled.writes (settled : s.Settled) : (s.files.map File.writes).sum = s.writers := by
  apply sum_eq_countP
  intro file mem
  rcases settled file mem with stage | stage <;> simp [File.writes, stage]

/-! ### Writes without a reader -/

/-- A write that has looked at `read_count` in this round, or that does not look in its first. -/
def Op.checked : Op → Bool
  | .writeBlock _ | .writeWait _ | .writeLock _ | .writeBuffer _ => true
  | _ => false

def Op.writing : Op → Bool
  | .writeCheck _ => true
  | op => op.checked

/-- The next step of the file takes `read_count` to zero. -/
def State.lastReader (s : State) (f : Nat) : Bool :=
  match s.files[f]? with
  | some ⟨.closeRead old _, _⟩ | some ⟨.openUndo old _, _⟩ =>
    old.readOnly && s.readCount == 1
  | some ⟨.openRead new _, _⟩ => new.readOnly && s.readCount + 1 == u32Size
  | _ => false

/-- No write is begun without a reader, and the last reader does not leave while a write is
past its check. -/
def Gentle (s : State) : Event → Prop
  | .write _ _ => s.readCount ≠ 0
  | .file f => s.lastReader f = true → ∀ call ∈ s.calls, call.op.checked = false
  | _ => True

instance {s : State} (e : Event) : Decidable (Gentle s e) := by
  cases e <;> unfold Gentle <;> infer_instance

/-- Without a reader no write is past its check. -/
def State.Unchecked (s : State) : Prop :=
  s.readCount = 0 → ∀ call ∈ s.calls, call.op.checked = false

section Unchecked

variable {o : Origin} {s' : State} {file file' : File} {f : Nat}

theorem Reading.after_unchecked (r : Reading) (result : Except Errno Nat) :
    (r.after result).checked = false := by
  cases result with
  | ok n =>
    dsimp only [Reading.after]
    split <;> rfl
  | error e => rfl

theorem Op.next_unchecked (none : s.readCount = 0) (before : op.checked = false)
    (goes : op.next s = some (op', s')) : op'.checked = false := by
  cases op with
  | readBlock r =>
    obtain ⟨-, goes⟩ := ite_none_left_eq_some.mp goes
    split at goes <;> cases goes <;> rfl
  | readLock r =>
    obtain ⟨-, goes⟩ := ite_none_left_eq_some.mp goes
    cases goes
    rfl
  | readBuffer r =>
    have eq : (r.transfer s).1 = op' := congrArg Prod.fst (Option.some.inj goes)
    rw [← eq, Reading.transfer]
    split <;> simp only [r.after_unchecked]
  | writeCheck w =>
    simp only [Op.next, none, if_true] at goes
    cases goes
    rfl
  | writeBlock w | writeWait w | writeLock w | writeBuffer w => cases before
  | readWait r | done result => cases goes

theorem Op.fault_unchecked (before : op.checked = false) (goes : op.fault k s = some (op', s')) :
    op'.checked = false := by
  cases op with
  | readBuffer r =>
    obtain ⟨ring, -, goes⟩ := bind_eq_some_iff.mp goes
    obtain ⟨-, goes⟩ := ite_none_right_eq_some.mp goes
    cases goes
    exact r.after_unchecked _
  | writeBuffer w => cases before
  | _ => cases goes

theorem Op.wake_unchecked (before : op.checked = false) (goes : op.wake = some op') :
    op'.checked = false := by
  cases op with
  | readWait r =>
    cases goes
    rfl
  | writeWait w => cases before
  | _ => cases goes

theorem Op.signal_unchecked (before : op.checked = false) (goes : op.signal = some op') :
    op'.checked = false := by
  cases op with
  | readBlock r | readWait r =>
    cases goes
    exact r.after_unchecked _
  | writeBlock w | writeWait w => cases before
  | _ => cases goes

theorem fetchSub_eq_zero (small : n < u32Size) (zero : fetchSub n = 0) : n = 1 := by
  simp only [fetchSub, u32Size] at *
  omega

theorem fetchAdd_eq_zero (small : n < u32Size) (zero : fetchAdd n = 0) : n + 1 = u32Size := by
  simp only [fetchAdd, u32Size] at *
  omega

/-- A step of a file that leaves no reader is that of the last one, unless there was none before. -/
theorem File.next_last (small : s.readCount < u32Size) (here : s.files[f]? = some file)
    (goes : file.next s = some (file', s')) :
    s'.calls = s.calls ∧ (s'.readCount = 0 → s.readCount = 0 ∨ s.lastReader f = true) := by
  obtain ⟨stage, flags⟩ := file
  unfold State.lastReader
  rw [here]
  cases stage with
  | idle | gone => cases goes
  | openRead new old =>
    cases goes
    refine ⟨rfl, fun zero => ?_⟩
    dsimp only at zero ⊢
    split at zero
    · rename_i reads
      simp [reads, fetchAdd_eq_zero small zero]
    · exact .inl zero
  | closeRead old new | openUndo old held =>
    cases goes
    refine ⟨rfl, fun zero => ?_⟩
    dsimp only at zero ⊢
    split at zero
    · rename_i reads
      simp [reads, fetchSub_eq_zero small zero]
    · exact .inl zero
  | openWrite new old | openUndoWrite new held | closeWrite old destroy new =>
    cases goes
    exact ⟨rfl, .inl⟩
  | openBlock new =>
    obtain ⟨-, goes⟩ := ite_none_right_eq_some.mp goes
    cases goes
    exact ⟨rfl, .inl⟩
  | openWait new blocked =>
    obtain ⟨-, goes⟩ := ite_none_left_eq_some.mp goes
    cases goes
    exact ⟨rfl, .inl⟩
  | openBuffer new old held | closeBuffer new =>
    obtain ⟨-, goes⟩ := ite_none_right_eq_some.mp goes
    cases goes
    exact ⟨rfl, .inl⟩

/-- One call goes on, and is not past its check. -/
theorem Unchecked.setOp {s₁ : State} {c : Nat} {call : Call} (quiet : s.Unchecked)
    (here : s.calls[c]? = some call) (ends : s₁.readCount = s.readCount)
    (calls : s₁.calls = s.calls)
    (goes : s.readCount = 0 → call.op.checked = false → op.checked = false) :
    (s₁.setOp c call op).Unchecked := by
  intro none other mem
  have none : s.readCount = 0 := ends ▸ none
  simp only [State.setOp, calls] at mem
  rcases List.mem_or_eq_of_mem_set mem with mem | rfl
  · exact quiet none other mem
  · exact goes none (quiet none call (List.mem_of_getElem? here))

theorem Unchecked.step {e : Event} (counts : Counts o s) (quiet : s.Unchecked) (gentle : Gentle s e)
    (run : Pipe.step e s = some s') : s'.Unchecked := by
  have small : s.readCount < u32Size := by
    rw [counts.reads]
    exact Nat.mod_lt _ (by decide)
  cases e with
  | «open» flags =>
    obtain ⟨-, run⟩ := ite_none_right_eq_some.mp run
    cases run
    exact quiet
  | setFlags f flags | drop f =>
    obtain ⟨old, -, run⟩ := bind_eq_some_iff.mp run
    obtain ⟨-, run⟩ := ite_none_right_eq_some.mp run
    cases run
    exact quiet
  | file f =>
    obtain ⟨file, here, run⟩ := bind_eq_some_iff.mp run
    obtain ⟨⟨file', s₁⟩, goes, run⟩ := bind_eq_some_iff.mp run
    cases run
    obtain ⟨calls, last⟩ := next_last small here goes
    intro none call mem
    simp only [State.setFile, calls] at mem
    rcases last none with none | last
    · exact quiet none call mem
    · exact gentle last call mem
  | wakeFile f | signalFile f =>
    obtain ⟨⟨stage, flags⟩, here, run⟩ := bind_eq_some_iff.mp run
    split at run <;> cases run
    exact quiet
  | read f len =>
    obtain ⟨flags, -, run⟩ := bind_eq_some_iff.mp run
    cases run
    intro none call mem
    rcases List.mem_append.mp mem with mem | mem
    · exact quiet none call mem
    · cases List.mem_singleton.mp mem
      unfold startRead
      repeat' split
      all_goals rfl
  | write f wdata =>
    obtain ⟨flags, -, run⟩ := bind_eq_some_iff.mp run
    cases run
    exact fun none => absurd none gentle
  | call c =>
    obtain ⟨call, here, run⟩ := bind_eq_some_iff.mp run
    obtain ⟨⟨op, s₁⟩, goes, run⟩ := bind_eq_some_iff.mp run
    cases run
    exact Unchecked.setOp quiet here (Op.next_ends goes).2.1 (Op.next_calls goes)
      fun none before => Op.next_unchecked none before goes
  | wake c =>
    obtain ⟨call, here, run⟩ := bind_eq_some_iff.mp run
    obtain ⟨op, goes, run⟩ := bind_eq_some_iff.mp run
    cases run
    exact Unchecked.setOp quiet here rfl rfl fun _ before => Op.wake_unchecked before goes
  | signal c =>
    obtain ⟨call, here, run⟩ := bind_eq_some_iff.mp run
    obtain ⟨op, goes, run⟩ := bind_eq_some_iff.mp run
    cases run
    exact Unchecked.setOp quiet here rfl rfl fun _ before => Op.signal_unchecked before goes
  | fault c k =>
    obtain ⟨call, here, run⟩ := bind_eq_some_iff.mp run
    obtain ⟨⟨op, s₁⟩, goes, run⟩ := bind_eq_some_iff.mp run
    cases run
    exact Unchecked.setOp quiet here (Op.fault_ends goes).2.1 (Op.fault_calls goes)
      fun _ before => Op.fault_unchecked before goes

end Unchecked

/-- The counts are those of the files if the shared data belong to a named FIFO. If no write is
begun without a reader and the last reader leaves between the rounds of writes, every write then
fails at its next step. -/
theorem ends_counted {o : Origin} {s : State}
    (reached : Reaches step (fun _ _ => True) (start o) s) (settled : s.Settled)
    (few : s.readers + 1 < u32Size ∧ s.writers + 1 < u32Size) :
    (s.readCount = s.readers ∧ s.writeCount = s.writers ↔ o = .named) ∧
    (o = .named → Reaches step Gentle (start o) s → s.readers = 0 →
      ∀ {c : Nat} {call : Call}, s.calls[c]? = some call → call.op.writing = true →
        step (.call c) s = some (s.setOp c call (.done (.error .epipe)))) := by
  have counts := reached.invariant (counts_start o) fun _ counts run => counts.step run
  have reads := counts.reads
  rw [Settled.reads settled] at reads
  have writes := counts.writes
  rw [Settled.writes settled] at writes
  constructor
  · cases o with
    | named =>
      simp only [Origin.extra, Nat.zero_add] at reads writes
      rw [Nat.mod_eq_of_lt (by omega)] at reads writes
      exact ⟨fun _ => rfl, fun _ => ⟨reads, writes⟩⟩
    | pipe =>
      simp only [Origin.extra] at reads
      rw [Nat.mod_eq_of_lt (by omega)] at reads
      exact ⟨fun eq => by omega, nofun⟩
  · rintro rfl gently none c call here writing
    have closed : s.readCount = 0 := by
      rw [reads, none]
      rfl
    obtain ⟨-, quiet⟩ : Counts .named s ∧ s.Unchecked := by
      refine gently.invariant (I := fun s => Counts .named s ∧ s.Unchecked)
        ⟨counts_start _, fun _ => List.forall_mem_nil _⟩ fun gentle before run => ?_
      exact ⟨before.1.step run, Unchecked.step before.1 before.2 gentle run⟩
    have before := quiet closed call (List.mem_of_getElem? here)
    cases op : call.op with
    | writeCheck w =>
      simp only [step, here, op, Op.next, closed, if_true, bind_eq_bind, bind_some, Writing.after]
      simp
    | _ => simp [op, Op.writing, Op.checked] at writing before

def Op.inSecondRound : Op → Bool
  | .writeCheck w => !w.first
  | _ => false

def Op.waitsInSecondRound : Op → Bool
  | .writeWait w => !w.first
  | _ => false

/-- A FIFO is opened for reading and for writing, and more is written than it can hold.
Then the reader is dropped. -/
def readerLeaves : List Event :=
  [.open ⟨true, false, true⟩, .file 0, .file 0, .file 0, .open ⟨false, true, true⟩, .file 1,
    .file 1, .file 1,
    .write 1 (List.replicate 2048 7), .call 0, .call 0, .drop 0, .file 0, .file 0, .file 0]

theorem ends_counted_named : ∃ s call, Reaches step Gentle (start .named) s ∧ s.Settled ∧
    s.readCount = 0 ∧ s.writeCount = 1 ∧ s.calls[0]? = some call ∧
      call.op.inSecondRound = true ∧
    step (.call 0) s = some (s.setOp 0 call (.done (.error .epipe))) := by
  obtain ⟨s, reached, readers, writers, settled, second⟩ : ∃ s,
      Reaches step Gentle (start .named) s ∧ s.readers = 0 ∧ s.writers = 1 ∧ s.Settled ∧
      s.calls[0]?.any fun call => call.op.inSecondRound :=
    exists_of_run readerLeaves (by decide +kernel)
  obtain ⟨call, here, second⟩ := (any_eq_true ..).mp second
  obtain ⟨⟨-, counted⟩, fails⟩ := ends_counted (reached.mono fun _ => trivial) settled
    (by rw [readers, writers]; decide)
  obtain ⟨reads, writes⟩ := counted rfl
  have writing : call.op.writing = true := by
    cases op : call.op <;> simp_all [Op.inSecondRound, Op.writing]
  exact ⟨s, call, reached, settled, by omega, by omega, here, second,
    fails rfl reached readers here writing⟩

/-- The two ends of a pipe. The write end is made to wait, more is written than the pipe
can hold, and the read end is dropped. -/
def pipeReaderLeaves : List Event :=
  [.setFlags 0 ⟨false, true, false⟩, .file 0, .file 0, .file 0, .file 0, .file 0,
    .write 0 (List.replicate 2048 7), .call 0, .call 0, .drop 1, .file 1, .file 1, .call 0, .call 0]

/-- There is no reading file, `read_count` is 1, and the write waits in its second round. -/
theorem not_ends_counted : ∃ s call, Reaches step (fun _ _ => True) (start .pipe) s ∧
    s.Settled ∧
    s.readers = 0 ∧ s.readCount = 1 ∧ s.calls[0]? = some call ∧
      call.op.waitsInSecondRound = true := by
  obtain ⟨s, reached, settled, readers, count, waits⟩ : ∃ s, Reaches step (fun _ _ => True)
    (start .pipe) s ∧
      s.Settled ∧ s.readers = 0 ∧ s.readCount = 1 ∧ s.calls[0]?.any fun call =>
          call.op.waitsInSecondRound :=
    exists_of_run pipeReaderLeaves (by decide +kernel)
  obtain ⟨call, here, waits⟩ := (any_eq_true ..).mp waits
  exact ⟨s, call, reached, settled, readers, count, here, waits⟩

end BadgerOS.Pipe
