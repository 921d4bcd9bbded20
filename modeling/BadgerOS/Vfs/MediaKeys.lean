import BadgerOS.Machine
import BadgerOS.Vfs.Mounts

/-!
# Filesystems by medium

What `mount` does with the medium that it is given: its key is looked up in
`by_media`, which no call ever fills. `BadgerOS.Vfs.Mounts` has the rest of it.
-/

namespace BadgerOS.Mounts

/-- A `Media` with which `MediaKey::new` does not panic. -/
structure Media where
  offset : Nat
  size : Nat
  /-- The device id of `storage`. -/
  device : Nat
  /-- `block_count() << block_size_exp()`, which is 0 until the device is identified. -/
  deviceSize : Nat
  fits : offset + size < usizeSize
  deriving DecidableEq

structure MediaKey where
  device : Nat
  offset : Option (Nat × Nat)
  deriving DecidableEq

def MediaKey.new (media : Media) : MediaKey where
  offset :=
    if media.offset ≠ 0 ∨
      media.offset ≠ media.deviceSize then some (media.offset, media.offset + media.size)
    else none
  device := media.device

def MediaKey.cmp (self other : MediaKey) : Ordering :=
  match compare self.device other.device with
  | .eq =>
    let selfOff := (self.offset.map Prod.fst).getD 0
    let otherOff := (other.offset.map Prod.fst).getD 0
    compare selfOff otherOff
  | ord => ord

structure MediaCall where
  type : FsType
  media : Option Media
  deriving DecidableEq

/-- A mount, with the call that made it. -/
structure MediaMount where
  call : MediaCall
  vfs : Nat

structure MediaTable where
  byMedia : List (MediaKey × Nat)
  all : List MediaMount
  /-- The filesystem that a driver makes next. -/
  next : Nat

namespace MediaTable

/-- `by_media.get`. -/
def get (s : MediaTable) (key : MediaKey) : Option Nat :=
  (s.byMedia.find? fun entry => entry.1.cmp key = .eq).map Prod.snd

/-- A call of `mount` that succeeds. -/
def mount (s : MediaTable) (call : MediaCall) : MediaTable :=
  match call.media.bind fun media => s.get (.new media), call.type with
  | some existing, _ => { s with all := s.all ++ [⟨call, existing⟩] }
  -- there is one instance of devtmpfs
  | none, .devtmpfs => { s with all := s.all ++ [⟨call, 0⟩] }
  | none, .driver => { s with all := s.all ++ [⟨call, s.next⟩], next := s.next + 1 }

end MediaTable

/-- The table after calls of `mount` that succeed. -/
def mountAll (calls : List MediaCall) : MediaTable := calls.foldl .mount ⟨[], [], 1⟩

def SameRange (a b : Media) : Prop := a.device = b.device ∧ a.offset = b.offset ∧
    a.size = b.size

/-- The order of the keys agrees with their equality, and that with the ranges. -/
def KeysAgree (a b : Media) : Prop :=
  ((MediaKey.new a).cmp (.new b) = .eq ↔ MediaKey.new a = .new b) ∧
    (MediaKey.new a = .new b ↔ SameRange a b)

/-- The mounts of a medium share one filesystem, those of different media do not, and
the keys agree. -/
def Shared (s : MediaTable) : Prop :=
  s.all.Pairwise fun m m' => ∀ a ∈ m.call.media, ∀ b ∈ m'.call.media,
    (m.vfs = m'.vfs ↔ SameRange a b) ∧ KeysAgree a b

/-- Two calls for one medium are both for devtmpfs, and only then; two media that
start at one place have the same size and the device was identified for both or none. -/
def Separate (c c' : MediaCall) : Prop :=
  ∀ a ∈ c.media, ∀ b ∈ c'.media, (c.type = .devtmpfs ∧ c'.type = .devtmpfs ↔
    SameRange a b) ∧
      (a.device = b.device → a.offset = b.offset →
        a.size = b.size ∧ (a.offset = 0 → (a.deviceSize = 0 ↔ b.deviceSize = 0)))

theorem cmp_eq_iff (a b : Media) :
    (MediaKey.new a).cmp (.new b) = .eq ↔ a.device = b.device ∧ a.offset = b.offset := by
  have start (media : Media) :
      ((MediaKey.new media).offset.map Prod.fst).getD 0 = media.offset := by
    grind [MediaKey.new]
  simp only [MediaKey.cmp, start]
  split <;> simp_all [MediaKey.new]

theorem keysAgree_iff (a b : Media) : KeysAgree a b ↔
    (a.device = b.device → a.offset = b.offset →
    a.size = b.size ∧ (a.offset = 0 → (a.deviceSize = 0 ↔ b.deviceSize = 0))) := by
  rw [KeysAgree, cmp_eq_iff]
  grind [MediaKey.new, SameRange]

/-- What the calls so far have made. -/
structure MediaTable.Made (s : MediaTable) (calls : List MediaCall) : Prop where
  empty : s.byMedia = []
  calls_eq : s.all.map MediaMount.call = calls
  next_pos : 0 < s.next
  vfs {m : MediaMount} : m ∈ s.all → m.vfs < s.next ∧ (m.vfs = 0 ↔ m.call.type = .devtmpfs)
  distinct : s.all.Pairwise fun m m' => m.vfs = m'.vfs ↔ m.call.type = .devtmpfs ∧
    m'.call.type = .devtmpfs

section

variable {s : MediaTable} {calls : List MediaCall}

theorem MediaTable.Made.mount (h : s.Made calls) (call : MediaCall) :
    (s.mount call).Made (calls ++ [call]) := by
  have none : (call.media.bind fun media => s.get (.new media)) = none := by simp [get, h.empty]
  obtain ⟨vfs, next, eq, le, less, zero, new⟩ : ∃ vfs next,
    s.mount call = ⟨[], s.all ++ [⟨call, vfs⟩], next⟩ ∧
      s.next ≤ next ∧ vfs < next ∧ (vfs = 0 ↔ call.type = .devtmpfs) ∧
          (vfs = 0 ∨ s.next ≤ vfs) := by
    have pos := h.next_pos
    unfold MediaTable.mount
    rw [none, h.empty]
    cases call.type with
    | devtmpfs => exact ⟨0, s.next, rfl, le_rfl, pos, by simp, .inl rfl⟩
    | driver => exact ⟨s.next, s.next + 1, rfl, by omega, by omega, by simp; omega, .inr le_rfl⟩
  rw [eq]
  constructor
  case empty => rfl
  case calls_eq => simp [h.calls_eq]
  case next_pos => exact Nat.zero_lt_of_lt less
  case vfs =>
    intro m mem
    obtain old | same := List.mem_append.mp mem
    · exact ⟨(h.vfs old).1.trans_le le, (h.vfs old).2⟩
    · cases List.mem_singleton.mp same
      exact ⟨less, zero⟩
  case distinct =>
    refine List.pairwise_append.mpr ⟨h.distinct, List.pairwise_singleton ..,
      fun m mem m' same => ?_⟩
    cases List.mem_singleton.mp same
    have old := h.vfs mem
    rw [← old.2, ← zero]
    dsimp only
    omega

theorem MediaTable.Made.run (h : s.Made calls) (later : List MediaCall) :
    (later.foldl .mount s).Made (calls ++ later) := by
  induction later generalizing s calls with
  | nil => simpa using h
  | cons call later ih => simpa using ih (h.mount call)

end

theorem made_mountAll (calls : List MediaCall) : (mountAll calls).Made calls :=
  MediaTable.Made.run ⟨rfl, rfl, Nat.one_pos, by simp, .nil⟩ calls

/-- Mounts share filesystems by medium exactly if the calls keep apart. -/
theorem shared_iff (calls : List MediaCall) : Shared (mountAll calls) ↔
    calls.Pairwise Separate := by
  have made := made_mountAll calls
  rw [← made.calls_eq, List.pairwise_map, Shared, made.calls_eq]
  constructor
  · apply List.Pairwise.imp₂ _ made.distinct
    intro m m' same shared a ha b hb
    rw [← same, ← keysAgree_iff]
    exact shared a ha b hb
  · apply List.Pairwise.imp₂ _ made.distinct
    intro m m' same apart a ha b hb
    rw [same, keysAgree_iff]
    exact apart a ha b hb

/-- A medium that is mounted twice. -/
theorem not_shared :
    ¬ Shared (mountAll (.replicate 2 ⟨.driver, some ⟨0, 8, 1, 8, by decide⟩⟩)) := by
  simp [Shared, mountAll, MediaTable.mount, MediaTable.get, SameRange]

end BadgerOS.Mounts
