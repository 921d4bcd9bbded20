import BadgerOS.Vfs.File

/-!
# Open files are byte arrays with private offsets
-/

namespace BadgerOS.Vfs

open Fallible Function List PageCache

/-- What an open file is for: its bytes, and where each handle stands. -/
structure ByteFile where
  bytes : List Byte
  offsets : Nat → Nat

namespace ByteFile

def moved (f : ByteFile) (h offset : Nat) : ByteFile :=
  { f with offsets := update f.offsets h offset }

/-- The first `size` bytes, with zeroes for those that are missing. -/
def resized (bytes : List Byte) (size : Nat) : List Byte :=
  bytes.take size ++ List.replicate (size - bytes.length) 0

/-- Put `data` at an offset. A gap before it is filled with zeroes. -/
def stored (bytes : List Byte) (offset : Nat) (data : List Byte) : List Byte :=
  resized bytes offset ++ data ++ bytes.drop (offset + data.length)

def seekBase (f : ByteFile) (h : Nat) : SeekMode → Int
  | .set => 0
  | .cur => f.offsets h
  | .fromEnd => f.bytes.length

/-- One call. `appends h` says whether handle `h` was opened with `APPEND`. -/
def step (appends : Nat → Bool) (f : ByteFile) : Call → Reply × ByteFile
  | .read h len =>
    let data := (f.bytes.drop (f.offsets h)).take len
    (.data data, f.moved h (f.offsets h + data.length))
  | .write h data =>
    let start := if appends h then f.bytes.length else f.offsets h
    (.count data.length,
      { f.moved h (start + data.length) with bytes := stored f.bytes start data })
  | .seek h mode offset =>
    let target := (max 0 (min (f.bytes.length : Int) (f.seekBase h mode + offset.toInt))).toNat
    (.position target, f.moved h target)
  | .tell h => (.position (f.offsets h), f)
  | .resize h size =>
    (.unit, { f.moved h (min (f.offsets h) size) with bytes := resized f.bytes size })

theorem resized_length (bytes : List Byte) (size : Nat) : (resized bytes size).length = size := by
  simp only [resized, length_append, length_take, length_replicate]
  omega

theorem stored_length (bytes : List Byte) (offset : Nat) (data : List Byte) :
    (stored bytes offset data).length = max bytes.length (offset + data.length) := by
  simp only [stored, length_append, resized_length, length_drop]
  omega

/-- The size and the offsets are below 2⁶³. -/
def Small (f : ByteFile) : Prop := f.bytes.length < 2 ^ 63 ∧ ∀ h, f.offsets h < 2 ^ 63

end ByteFile

open ByteFile

/-- The vnode is a regular file on a filesystem that is not read-only, its
handles are open for reading and writing, and they show the byte array. -/
structure Files.Shows (s : Files) (appends : Nat → Bool) (f : ByteFile) : Prop where
  regular : s.type = .regular
  writable : s.isReadOnly = false
  readable (h : Nat) : (s.handles h).has OFlags.readOnly = true
  opened (h : Nat) : (s.handles h).has OFlags.writeOnly = true
  mode (h : Nat) : (s.handles h).has OFlags.append = appends h
  size : s.size = f.bytes.length
  cache : s.pagecache = some f.bytes
  offset (h : Nat) : (s.handles h).offset = f.offsets h

section Cache

variable {bytes data : List Byte} {offset : Nat}

/-- The write of a file that was made longer for it. -/
theorem writeBytes_grown (fits : offset + data.length < usizeSize)
    (grows : bytes.length ≤ offset + data.length) :
    writeBytes (setLen bytes (offset + data.length)) offset data = .ok
      (stored bytes offset data) := by
  have hlen : (setLen bytes (offset + data.length)).length = offset + data.length :=
    resized_length bytes _
  have bounds : inBounds (setLen bytes (offset + data.length)) offset data.length = true := by
    simp [inBounds, hlen, fits]
  have before : (setLen bytes (offset + data.length)).take offset = resized bytes offset := by
    rw [setLen, resized, take_append, take_take, length_take, take_replicate]
    congr 2
    · omega
    · omega
  have after := drop_eq_nil_of_le hlen.le
  rw [writeBytes, if_pos bounds, before, after, stored, drop_eq_nil_of_le grows]

theorem writeBytes_inside (fits : offset + data.length < usizeSize)
    (inside : offset + data.length ≤ bytes.length) :
    writeBytes bytes offset data = .ok (stored bytes offset data) := by
  have bounds : inBounds bytes offset data.length = true := by
    simp [inBounds, fits, inside]
  have nothing : offset - bytes.length = 0 := by omega
  rw [writeBytes, if_pos bounds, stored, resized, nothing, replicate_zero, append_nil]

end Cache

variable {len : Nat} {data : List Byte} {appends : Nat → Bool} {calls : List Call} {f : ByteFile}

section Calls

variable {s : Files} {h : Nat}

/-- Moving a handle and storing bytes keeps everything else. -/
theorem Files.Shows.store (view : s.Shows appends f) (offset : Nat) (bytes : List Byte) :
    Files.Shows { s with
      size := bytes.length, pagecache := some bytes
      handles := update s.handles h { s.handles h with offset := offset } } appends
      { f.moved h offset with bytes := bytes } := by
  have flags : ∀ k mask, FlagsAndOffset.has (update s.handles h
      { s.handles h with offset := offset } k) mask = (s.handles k).has mask := by
    intro k mask
    by_cases hk : k = h
    · subst hk
      rw [update_self]
      rfl
    · rw [update_of_ne hk]
  constructor
  · exact view.regular
  · exact view.writable
  · exact fun k => (flags k _).trans (view.readable k)
  · exact fun k => (flags k _).trans (view.opened k)
  · exact fun k => (flags k _).trans (view.mode k)
  · rfl
  · rfl
  · intro k
    dsimp only [moved]
    by_cases hk : k = h
    · subst hk
      rw [update_self, update_self]
    · rw [update_of_ne hk, update_of_ne hk, view.offset k]

theorem Files.Shows.move (view : s.Shows appends f) (offset : Nat) : Files.Shows { s with
      handles := update s.handles h { s.handles h with offset := offset } } appends
      (f.moved h offset) := by
  have key := view.store (h := h) offset f.bytes
  rw [← view.size, ← view.cache] at key
  exact key

/-- The result of a call, and that the byte array made the same step. -/
def Files.StepsTo (s : Files) (appends : Nat → Bool) (f : ByteFile) (call : Call) : Prop :=
  ∃ s', call.exec s = some (.ok (f.step appends call).1, s') ∧
    s'.Shows appends (f.step appends call).2

theorem read_steps (view : s.Shows appends f) (small : f.Small)
    (inside : f.offsets h ≤ f.bytes.length) : s.StepsTo appends f (.read h len) := by
  have hlen : ((f.bytes.drop (f.offsets h)).take len).length = min len (s.size - f.offsets h) := by
    rw [length_take, length_drop, view.size]
  have hsize := small.1
  have hadd : usizeAdd (f.offsets h) (min len (s.size - f.offsets h)) =
      some (f.offsets h + min len (s.size - f.offsets h)) := by
    rw [usizeAdd_eq_some, view.size, usizeSize]
    omega
  have hread : readBytes f.bytes (f.offsets h) (min len (s.size - f.offsets h)) =
      .ok ((f.bytes.drop (f.offsets h)).take len) := by
    have bounds : inBounds f.bytes (f.offsets h) (min len (s.size - f.offsets h)) = true := by
      simp [inBounds, view.size, usizeSize]
      omega
    rw [readBytes, if_pos bounds, view.size, ← length_drop, ← take_eq_take_min]
  refine ⟨_, ?_, view.move _⟩
  simp [Call.exec, Vfs.read, view.readable, view.regular, unwrapCache, view.cache, view.offset,
    hadd, setOffset, hread, step, hlen]

theorem checkEio_ok {α : Type} {m : Kernel α} {a : α} {s' : Files}
    (run : m s = some (.ok a, s')) : checkEio m s = some (.ok a, s') := by
  simp only [checkEio, run]

theorem appendWrite_run (view : s.Shows appends f)
    (fits : f.bytes.length + data.length < usizeSize) :
    appendWrite h data s = some (.ok data.length, { s with
      size := (stored f.bytes f.bytes.length data).length
      pagecache := some (stored f.bytes f.bytes.length data)
      handles :=
        update s.handles h { s.handles h with offset := f.bytes.length + data.length } }) := by
  have hw := writeBytes_grown fits (Nat.le_add_right ..)
  have hlen : (stored f.bytes f.bytes.length data).length = f.bytes.length + data.length := by
    rw [stored_length]
    omega
  simp [appendWrite, unwrapCache, view.cache, view.size, checkedAdd, fits, resizeOps, setOffset,
    setCache, hw, hlen]

theorem regularWrite_run (view : s.Shows appends f) (fits : f.offsets h + data.length < usizeSize) :
    regularWrite h data s = some (.ok data.length, { s with
      size := (stored f.bytes (f.offsets h) data).length
      pagecache := some (stored f.bytes (f.offsets h) data)
      handles :=
        update s.handles h { s.handles h with offset := f.offsets h + data.length } }) := by
  rw [stored_length]
  by_cases grows : f.bytes.length < f.offsets h + data.length
  · have hw := writeBytes_grown fits grows.le
    simp [regularWrite, regularShared, regularExclusive, finishWrite, unwrapCache, view.cache,
      view.size, view.offset, checkedAdd, fits, resizeOps, setOffset, setCache, hw, grows, grows.le]
  · have hw := writeBytes_inside fits (Nat.le_of_not_lt grows)
    simp [regularWrite, regularShared, finishWrite, unwrapCache, view.cache, view.size,
      view.offset, checkedAdd, fits, setOffset, setCache, hw, grows, Nat.le_of_not_lt grows]

theorem write_steps (view : s.Shows appends f)
    (small : (f.step appends (.write h data)).2.Small) : s.StepsTo appends f (.write h data) := by
  have hend := small.2 h
  simp only [step, moved, update_self] at hend
  unfold Files.StepsTo
  simp only [Call.exec, Vfs.write, writeMode, step]
  cases happ : appends h with
  | true =>
    simp only [happ, if_true] at hend
    have fits : f.bytes.length + data.length < usizeSize := by
      rw [usizeSize]
      omega
    refine ⟨_, ?_, view.store _ _⟩
    simp [view.opened, view.regular, view.writable, view.mode, happ,
      bind_of_ok (checkEio_ok (appendWrite_run view fits))]
  | false =>
    simp only [happ, Bool.false_eq_true, if_false] at hend
    have fits : f.offsets h + data.length < usizeSize := by
      rw [usizeSize]
      omega
    refine ⟨_, ?_, view.store _ _⟩
    simp [view.opened, view.regular, view.writable, view.mode, happ,
      bind_of_ok (checkEio_ok (regularWrite_run view fits))]

theorem asI64_of_lt {x : Nat} (hx : x < 2 ^ 63) : asI64 x = x := by
  rw [asI64, BitVec.toInt_eq_toNat_cond, BitVec.toNat_ofNat, Nat.mod_eq_of_lt (by omega),
    if_pos (by omega)]

/-- The saturated sum has the same clamped value. -/
theorem clamp_seekFrom (mode : SeekMode) (offset : BitVec 64) (hsize : f.bytes.length < 2 ^ 63)
    (hoff : f.offsets h < 2 ^ 63) :
    clamp (seekFrom mode offset.toInt (f.offsets h) f.bytes.length) 0 (asI64 f.bytes.length) =
      some (max 0 (min (f.bytes.length : Int) (f.seekBase h mode + offset.toInt))) := by
  rw [asI64_of_lt hsize, clamp, if_pos (by omega)]
  congr 1
  cases mode with
  | set => simp only [seekFrom, seekBase, zero_add]
  | cur =>
    simp only [seekFrom, seekBase, asI64_of_lt hoff, saturatingAdd, i64Min, i64Max]
    omega
  | fromEnd =>
    simp only [seekFrom, seekBase, asI64_of_lt hsize, saturatingAdd, i64Min, i64Max]
    omega

section

variable (view : s.Shows appends f)
include view

theorem seek_steps (small : f.Small) {mode : SeekMode} {offset : BitVec 64} :
    s.StepsTo appends f (.seek h mode offset) := by
  have hsize := small.1
  have hclamp := clamp_seekFrom mode offset hsize (small.2 h)
  generalize ht : max 0 (min (f.bytes.length : Int) _) = target at hclamp
  have hu64 : target % 18446744073709551616 = target := by omega
  refine ⟨_, ?_, view.move _⟩
  simp [Call.exec, Vfs.seek, view.offset, view.size, hclamp, setOffset, hu64, step, ht]

theorem tell_steps : s.StepsTo appends f (.tell h) := by
  refine ⟨s, ?_, view⟩
  simp [Call.exec, Vfs.tell, view.offset, step]

theorem resize_steps {size : Nat} : s.StepsTo appends f (.resize h size) := by
  refine ⟨_, ?_, view.store (min (f.offsets h) size) (resized f.bytes size)⟩
  have same : setLen f.bytes size = resized f.bytes size := rfl
  simp [Call.exec, Vfs.resize, view.opened, view.writable, view.cache, view.offset, resizeOps,
    setCache, setOffset, same, step, resized_length]

/-- A read from behind the end of the file is an I/O error. -/
theorem read_behind (small : f.Small) (behind : f.bytes.length < f.offsets h) :
    ¬ s.StepsTo appends f (.read h len) := by
  rintro ⟨s', run, -⟩
  have hoff := small.2 h
  have none_left : s.size - f.offsets h = 0 := by
    rw [view.size]
    omega
  have hadd : usizeAdd (f.offsets h) 0 = some (f.offsets h) := by
    rw [usizeAdd_eq_some, usizeSize]
    omega
  have hread : readBytes f.bytes (f.offsets h) 0 = .error .eio := by
    simp [readBytes, inBounds, behind]
  simp [Call.exec, Vfs.read, view.readable, view.regular, unwrapCache, view.cache, view.offset,
    none_left, hadd, setOffset, hread, bind_of_error liftExcept_run] at run

end

end Calls

/-- Every call of the sequence returns and changes exactly what it does to the
byte array. -/
def Files.Refines (appends : Nat → Bool) : List Call → Files → ByteFile → Prop
  | [], s, f => s.Shows appends f
  | call :: rest, s, f => s.Shows appends f ∧
    ∃ s', call.exec s = some (.ok (f.step appends call).1, s') ∧
      Refines appends rest s' (f.step appends call).2

/-- Writes are not empty, and sizes and offsets stay below 2⁶³. -/
def Call.Legal (appends : Nat → Bool) : List Call → ByteFile → Prop
  | [], f => f.Small
  | call :: rest, f => f.Small ∧ (∀ h, call ≠ .write h []) ∧
    Legal appends rest (f.step appends call).2

/-- No handle reads from behind the end of the file. -/
def Call.ReadsInside (appends : Nat → Bool) : List Call → ByteFile → Prop
  | [], _ => True
  | call :: rest, f => (∀ h len, call = .read h len → f.offsets h ≤ f.bytes.length) ∧
    ReadsInside appends rest (f.step appends call).2

theorem Call.Legal.small (legal : Call.Legal appends calls f) : f.Small := by
  cases calls with
  | nil => exact legal
  | cons => exact legal.1

theorem Files.Refines.shows_first {s : Files} (refines : Files.Refines appends calls s f) :
    s.Shows appends f := by
  cases calls with
  | nil => exact refines
  | cons => exact refines.1

theorem Files.Shows.call {s : Files} {appends : Nat → Bool} {f : ByteFile} {call : Call}
    (view : s.Shows appends f) (small : f.Small) (after : (f.step appends call).2.Small)
    (inside : ∀ h len, call = .read h len → f.offsets h ≤ f.bytes.length) :
    s.StepsTo appends f call := by
  cases call with
  | read h len => exact read_steps view small (inside h len rfl)
  | write h data => exact write_steps view after
  | seek h mode offset => exact seek_steps view small
  | tell h => exact tell_steps view
  | resize h size => exact resize_steps view

/-- Open files refine byte arrays exactly as long as no handle reads from behind
the end of the file. -/
theorem files_refine {appends : Nat → Bool} (calls : List Call) {s : Files} {f : ByteFile}
    (view : s.Shows appends f) (legal : Call.Legal appends calls f) :
    Files.Refines appends calls s f ↔ Call.ReadsInside appends calls f := by
  induction calls generalizing s f with
  | nil => exact ⟨fun _ => trivial, fun _ => view⟩
  | cons call rest ih =>
    obtain ⟨small, -, legal⟩ := legal
    constructor
    · rintro ⟨-, s', run, refines⟩
      constructor
      · rintro h len rfl
        by_contra behind
        exact read_behind view small (Nat.lt_of_not_le behind) ⟨s', run, refines.shows_first⟩
      · exact (ih refines.shows_first legal).mp refines
    · rintro ⟨inside, rest_inside⟩
      obtain ⟨s', run, view'⟩ := view.call small legal.small inside
      exact ⟨view, s', run, (ih view' legal).mpr rest_inside⟩

/-- An empty file with every handle open for reading and writing, and an array
of no bytes. -/
def emptyFiles : Files where
  type := .regular
  isReadOnly := false
  size := 0
  pagecache := some []
  handles _ := ⟨0, OFlags.readWrite⟩

def emptyBytes : ByteFile := ⟨[], fun _ => 0⟩

theorem emptyFiles_shows : emptyFiles.Shows (fun _ => false) emptyBytes := by
  constructor
  case readable | opened | mode =>
    exact fun _ => (by decide : FlagsAndOffset.has ⟨0, OFlags.readWrite⟩ _ = _)
  all_goals first | rfl | exact fun _ => rfl

theorem emptyBytes_small : emptyBytes.Small := ⟨by decide, fun _ => Nat.two_pow_pos 63⟩

/-- Moving one handle below 2⁶³ keeps the offsets small. -/
theorem ByteFile.Small.store (small : f.Small) (h offset : Nat) (bytes : List Byte)
    (hbytes : bytes.length < 2 ^ 63) (hoff : offset < 2 ^ 63) :
    Small { f.moved h offset with bytes := bytes } := by
  constructor
  · exact hbytes
  · intro k
    dsimp only [moved]
    by_cases hk : k = h
    · rw [hk, update_self]
      exact hoff
    · rw [update_of_ne hk]
      exact small.2 k

/-- Handle 0 writes three bytes, goes back and reads two of them. -/
def writeAndRead : List Call := [.write 0 [1, 2, 3], .seek 0 .set 1, .read 0 2]

theorem files_refine_three : Files.Refines (fun _ => false) writeAndRead emptyFiles emptyBytes := by
  have small₁ := emptyBytes_small.store 0 3 [1, 2, 3] (by decide) (by decide)
  have small₂ := small₁.store 0 1 [1, 2, 3] (by decide) (by decide)
  have small₃ := small₂.store 0 3 [1, 2, 3] (by decide) (by decide)
  apply (files_refine writeAndRead emptyFiles_shows
    ⟨emptyBytes_small,
      fun _ => nofun, small₁, fun _ => nofun, small₂, fun _ => nofun, small₃⟩).mpr
  refine ⟨?_, ?_, ?_, trivial⟩
  · rintro h len ⟨⟩
  · rintro h len ⟨⟩
  · rintro h len ⟨⟩
    decide

/-- Handle 0 writes three bytes, handle 1 makes the file empty, and handle 0
reads from where it stands. -/
def shrinkUnder : List Call := [.write 0 [1, 2, 3], .resize 1 0, .read 0 1]

theorem not_files_refine : ¬ ∀ (appends : Nat → Bool) (calls : List Call) (s : Files)
    (f : ByteFile),
    s.Shows appends f → Call.Legal appends calls f → Files.Refines appends calls s f := by
  intro all
  have small₁ := emptyBytes_small.store 0 3 [1, 2, 3] (by decide) (by decide)
  have small₂ := small₁.store 1 0 [] (by decide) (by decide)
  have small₃ := small₂.store 0 3 [] (by decide) (by decide)
  have refines := all (fun _ => false) shrinkUnder emptyFiles emptyBytes emptyFiles_shows
    ⟨emptyBytes_small,
      fun _ => nofun, small₁, fun _ => nofun, small₂, fun _ => nofun, small₃⟩
  obtain ⟨-, s₁, run₁, -, s₂, run₂, -, s₃, run₃, -⟩ := refines
  cases run₁
  cases run₂
  exact nomatch run₃

end BadgerOS.Vfs
