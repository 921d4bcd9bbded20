import BadgerOS.Machine
import BadgerOS.Lib.Outcome
import BadgerOS.Types

/-!
# Partitions

The byte operations of `device/class/block.rs` and `filesystem/media.rs`, down to
the bytes that the page cache of the whole device is asked for. Addresses are
`u64` values. The subtraction that the debug profile checks is a panic.
-/

namespace BadgerOS.Partition

open Outcome

/-- The bytes of the device that a call touches. -/
structure Touched where
  start : Nat
  len : Nat
  deriving DecidableEq, Repr

def Touched.Has (t : Touched) (x : Nat) : Prop := t.start ≤ x ∧ x < t.start + t.len

abbrev Result := Outcome Errno Touched

/-- `checked_add` with `EIO` for an overflow. -/
def checkedAdd (a b : Nat) : Outcome Errno Nat :=
  if a + b < usizeSize then .ok (a + b) else .err .eio

structure BlockDevice where
  /-- The length of its page cache. -/
  len : Nat
  /-- Whether the metadata and the page cache are there (`alloc_cache`). -/
  cached : Bool
  fits : len < usizeSize

namespace BlockDevice

/-- The bounds check of `PageCache::read_bytes`, `write_bytes` and `write_zeroes`. -/
def cacheBytes (dev : BlockDevice) (addr len : Nat) : Result := do
  let stop ← checkedAdd addr len
  if dev.len < stop then .err .eio else .ok ⟨addr, len⟩

/-- `PageCache::sync`, which stops at the end of the device. -/
def cacheSync (dev : BlockDevice) (addr len : Nat) : Result :=
  match usizeAdd addr (len - 1) with
  | none => .panic
  | some _ => .ok ⟨addr, min len (dev.len - addr)⟩

end BlockDevice

/-- `Range<u64>`. -/
structure Range where
  start : Nat
  stop : Nat
  deriving DecidableEq, Repr

/-- `dyn BlockDevice`: a device, or a `BlockDevicePart` of it. -/
structure Volume where
  dev : BlockDevice
  currentPartition : Option Range

namespace Volume

variable (v : Volume)

/-- A partition cannot identify the device. -/
def allocCache : Outcome Errno Unit :=
  match v.dev.cached, v.currentPartition with
  | false, some _ => .err .einval
  | _, _ => .ok ()

def partitionOffset (addr len : Nat) : Outcome Errno Nat :=
  match v.currentPartition with
  | some partition => do
    let start ← checkedAdd addr partition.start
    let stop ← checkedAdd start len
    if stop > partition.stop then .err .eio else .ok start
  | none => .ok addr

def readBytes (addr len : Nat) : Result := do
  let addr ← v.partitionOffset addr len
  v.allocCache
  v.dev.cacheBytes addr len

def writeBytes (addr len : Nat) : Result := do
  let addr ← v.partitionOffset addr len
  v.allocCache
  v.dev.cacheBytes addr len

def writeZeroes (addr len : Nat) : Result := do
  v.allocCache
  v.dev.cacheBytes addr len

def syncBytes (addr len : Nat) : Result :=
  match v.currentPartition with
  | some partition => do
    let addr ← checkedAdd addr partition.start
    match usizeSub partition.stop addr with
    | none => .panic
    | some most => do
      v.allocCache
      v.dev.cacheSync addr (min len most)
  | none => do
    v.allocCache
    v.dev.cacheSync addr len

end Volume

structure Media where
  offset : Nat
  size : Nat
  storage : Volume

namespace Media

variable (m : Media)

/-- The check of the four operations, and the operation on the storage. -/
def access (op : Volume → Nat → Nat → Result) (offset len : Nat) : Result := do
  let offset ← checkedAdd offset m.offset
  let stop ← checkedAdd offset len
  if stop > m.size then .err .eio else op m.storage offset len

def read : Nat → Nat → Result := m.access Volume.readBytes

def write : Nat → Nat → Result := m.access Volume.writeBytes

def writeZeroes : Nat → Nat → Result := m.access Volume.writeZeroes

def sync : Nat → Nat → Result := m.access Volume.syncBytes

end Media

/-- A partition range inside a device. -/
structure Part (dev : BlockDevice) extends Range where
  ordered : start ≤ stop
  inside : stop ≤ dev.len

namespace Part

variable {dev : BlockDevice} (p : Part dev)

def size : Nat := p.stop - p.start

/-- The `BlockDevicePart`. -/
def volume : Volume := ⟨dev, some p.toRange⟩

/-- The `Media` with the offset and size of the partition on the whole device. -/
def media : Media := ⟨p.start, p.size, dev, none⟩

end Part

inductive Call where
  | read | write | writeZeroes | sync
  deriving DecidableEq, Repr

inductive Layer where
  | part | media
  deriving DecidableEq, Repr

variable {dev : BlockDevice}

def Part.access (p : Part dev) : Layer → Call → Nat → Nat → Result
  | .part, .read => p.volume.readBytes
  | .part, .write => p.volume.writeBytes
  | .part, .writeZeroes => p.volume.writeZeroes
  | .part, .sync => p.volume.syncBytes
  | .media, .read => p.media.read
  | .media, .write => p.media.write
  | .media, .writeZeroes => p.media.writeZeroes
  | .media, .sync => p.media.sync

/-- What a partition promises for a call at a relative offset. -/
structure Confined (p : Part dev) (offset len : Nat) (r : Result) : Prop where
  accepted : (∃ t, r = .ok t) ↔ offset + len ≤ p.size
  exact : ∀ t, r = .ok t → ∀ x, t.Has x ↔ p.start + offset ≤ x ∧
    x < p.start + offset + len
  inside : ∀ t, r = .ok t → ∀ x, t.Has x → p.start ≤ x ∧ x < p.stop
  no_wrap : r ≠ .panic

variable {p : Part dev} {offset len a b addr : Nat} {e : Errno}

/-- A call that is rejected when it should be. -/
theorem confined_err (e : Errno) (beyond : p.size < offset + len) :
    Confined p offset len (.err e) where
  accepted := by
    constructor
    · rintro ⟨t, eq⟩
      cases eq
    · omega
  exact := nofun
  inside := nofun
  no_wrap := nofun

theorem not_confined_err (fits : offset + len ≤ p.size) : ¬ Confined p offset len (.err e) := by
  intro h
  obtain ⟨t, eq⟩ := h.accepted.mpr fits
  cases eq

theorem confined_err_iff : Confined p offset len (.err e) ↔ p.size < offset + len := by
  constructor
  · intro h
    by_contra fits
    exact not_confined_err (by omega) h
  · exact confined_err e

theorem confined_ok_iff {t : Touched} : Confined p offset len (.ok t) ↔
    offset + len ≤ p.size ∧
      ∀ x, t.Has x ↔ p.start + offset ≤ x ∧ x < p.start + offset + len := by
  constructor
  · intro h
    exact ⟨h.accepted.mp ⟨t, rfl⟩, h.exact t rfl⟩
  · rintro ⟨fits, touched⟩
    refine ⟨⟨fun _ => fits, fun _ => ⟨t, rfl⟩⟩, ?_, ?_, nofun⟩
    · intro t' eq
      cases eq
      exact touched
    · intro t' eq x has
      cases eq
      have := (touched x).mp has
      simp only [Part.size] at fits
      omega

/-- The bytes of the partition that the call names. -/
theorem confined_ok (fits : offset + len ≤ p.size) :
    Confined p offset len (.ok ⟨p.start + offset, len⟩) :=
  confined_ok_iff.mpr ⟨fits, fun _ => Iff.rfl⟩

theorem Part.bound (p : Part dev) : p.start + p.size = p.stop ∧ p.stop < usizeSize := by
  have := p.ordered
  have := p.inside
  have := dev.fits
  simp only [Part.size]
  omega

theorem checkedAdd_ok (lt : a + b < usizeSize) : checkedAdd a b = .ok (a + b) := if_pos lt

theorem checkedAdd_err (ge : ¬ a + b < usizeSize) : checkedAdd a b = .err .eio := if_neg ge

/-- A whole-device access inside the device. -/
theorem cacheBytes_ok (inside : addr + len ≤ dev.len) : dev.cacheBytes addr len = .ok
    ⟨addr, len⟩ := by
  have := dev.fits
  simp only [BlockDevice.cacheBytes, checkedAdd_ok (show addr + len < usizeSize by omega), ok_bind]
  exact if_neg (by omega)

theorem cacheBytes_err (beyond : dev.len < addr + len) : dev.cacheBytes addr len = .err .eio := by
  unfold BlockDevice.cacheBytes
  by_cases lt : addr + len < usizeSize
  · simp only [checkedAdd_ok lt, ok_bind]
    exact if_pos beyond
  · rw [checkedAdd_err lt]
    rfl

theorem cacheSync_ok (inside : addr + len ≤ dev.len) : dev.cacheSync addr len = .ok
    ⟨addr, len⟩ := by
  have := dev.fits
  unfold BlockDevice.cacheSync
  rw [usizeAdd_eq_some.mpr ⟨by omega, rfl⟩]
  rw [Nat.min_eq_left (by omega)]

/-! ### The partition device -/

section Volume

variable (p : Part dev)

theorem partitionOffset_ok (fits : offset + len ≤ p.size) :
    p.volume.partitionOffset offset len = .ok (offset + p.start) := by
  have bound := p.bound
  simp only [Volume.partitionOffset, Part.volume, checkedAdd_ok (show offset + p.start <
    usizeSize by omega), ok_bind, checkedAdd_ok (show offset + p.start + len < usizeSize by omega)]
  exact if_neg (by omega)

theorem partitionOffset_err (beyond : p.size < offset + len) :
    p.volume.partitionOffset offset len = .err .eio := by
  have bound := p.bound
  simp only [Volume.partitionOffset, Part.volume]
  by_cases lt : offset + p.start < usizeSize
  · rw [checkedAdd_ok lt, ok_bind]
    by_cases lt' : offset + p.start + len < usizeSize
    · rw [checkedAdd_ok lt', ok_bind]
      exact if_pos (by omega)
    · rw [checkedAdd_err lt']
      rfl
  · rw [checkedAdd_err lt]
    rfl

theorem allocCache_eq : p.volume.allocCache = if dev.cached then .ok () else .err .einval := by
  cases cached : dev.cached <;> simp [Volume.allocCache, Part.volume, cached]

/-- `read_bytes` and `write_bytes` translate and check. -/
theorem confined_bytes : Confined p offset len (p.volume.readBytes offset len) ↔
    (offset + len ≤ p.size → dev.cached = true) := by
  have bound := p.bound
  have inside := p.inside
  unfold Volume.readBytes
  by_cases fits : offset + len ≤ p.size
  · rw [partitionOffset_ok p fits, ok_bind, allocCache_eq]
    cases cached : dev.cached
    · simpa [fits] using not_confined_err fits
    · have touched := cacheBytes_ok (show offset + p.start + len ≤ dev.len by omega)
      simp only [↓reduceIte, ok_bind, implies_true, iff_true]
      change Confined p offset len (dev.cacheBytes (offset + p.start) len)
      rw [touched, Nat.add_comm]
      exact confined_ok fits
  · rw [partitionOffset_err p (by omega)]
    simpa [fits] using confined_err .eio (by omega)

/-- `write_zeroes` hands the relative offset to the cache of the whole device. -/
theorem confined_zeroes : Confined p offset len (p.volume.writeZeroes offset len) ↔
    (if offset + len ≤ p.size then dev.cached = true ∧ (p.start = 0 ∨ len = 0)
      else dev.cached = true → dev.len < offset + len) := by
  have bound := p.bound
  have inside := p.inside
  unfold Volume.writeZeroes
  rw [allocCache_eq]
  cases cached : dev.cached
  · simp only [Bool.false_eq_true, ↓reduceIte, err_bind, confined_err_iff]
    split <;> simp <;> omega
  · simp only [↓reduceIte, ok_bind, true_and, forall_const]
    change Confined p offset len (dev.cacheBytes offset len) ↔ _
    by_cases beyond : dev.len < offset + len
    · rw [cacheBytes_err beyond, confined_err_iff, if_neg (by omega)]
      constructor <;> omega
    · rw [cacheBytes_ok (by omega), confined_ok_iff]
      split
      · rename_i fits
        constructor
        · -- the first byte tells the two offsets apart
          rintro ⟨-, touched⟩
          have first := touched offset
          simp only [Touched.Has] at first
          omega
        · rintro (zero | zero)
          · refine ⟨fits, fun x => ?_⟩
            simp [Touched.Has, zero]
          · refine ⟨fits, fun x => ?_⟩
            simp only [Touched.Has]
            omega
      · constructor
        · rintro ⟨fits, -⟩
          contradiction
        · intro beyond'
          contradiction

/-- `sync_bytes` shortens what is too long, and subtracts without a check. -/
theorem confined_sync : Confined p offset len (p.volume.syncBytes offset len) ↔
    usizeSize ≤ p.start + offset ∨
      p.start + offset ≤ p.stop ∧ (dev.cached = true ↔ offset + len ≤ p.size) := by
  have bound := p.bound
  have inside := p.inside
  simp only [Volume.syncBytes, Part.volume]
  by_cases lt : offset + p.start < usizeSize
  · rw [checkedAdd_ok lt, ok_bind]
    by_cases le : offset + p.start ≤ p.stop
    · rw [usizeSub_eq_some.mpr ⟨le, rfl⟩]
      change Confined p offset len (p.volume.allocCache >>= fun _ => _) ↔ _
      rw [allocCache_eq]
      cases cached : dev.cached
      · simp only [Bool.false_eq_true, ↓reduceIte, err_bind, confined_err_iff, false_iff]
        omega
      · simp only [↓reduceIte, ok_bind, true_iff]
        rw [cacheSync_ok (by omega), confined_ok_iff]
        constructor
        · omega
        · rintro (beyond | ⟨-, fits⟩)
          · omega
          · refine ⟨fits, fun x => ?_⟩
            simp only [Touched.Has]
            omega
    · have wraps : usizeSub p.stop (offset + p.start) = none := if_neg (by omega)
      rw [wraps]
      constructor
      · intro h
        exact absurd rfl h.no_wrap
      · rintro (beyond | ⟨le', -⟩) <;> omega
  · rw [checkedAdd_err lt, err_bind, confined_err_iff]
    omega

end Volume

/-! ### The media -/

section Media

variable (p : Part dev)

/-- On the whole device every operation goes where it is told. -/
def Direct (dev : BlockDevice) (op : Volume → Nat → Nat → Result) : Prop :=
  ∀ {addr len : Nat}, addr + len ≤ dev.len → op ⟨dev, none⟩ addr len = .ok ⟨addr, len⟩

theorem direct_bytes : Direct dev Volume.readBytes := by
  intro addr len inside
  have touched := cacheBytes_ok inside
  unfold Volume.readBytes Volume.partitionOffset Volume.allocCache
  cases dev.cached <;> exact touched

theorem direct_zeroes : Direct dev Volume.writeZeroes := by
  intro addr len inside
  have touched := cacheBytes_ok inside
  unfold Volume.writeZeroes Volume.allocCache
  cases dev.cached <;> exact touched

theorem direct_sync : Direct dev Volume.syncBytes := by
  intro addr len inside
  have touched := cacheSync_ok inside
  unfold Volume.syncBytes Volume.allocCache
  cases dev.cached <;> exact touched

/-- The absolute end is compared with the size of the partition. -/
theorem confined_media {op : Volume → Nat → Nat → Result} (direct : Direct dev op) :
    Confined p offset len (p.media.access op offset len) ↔
      (offset + len ≤ p.size → p.start + offset + len ≤ p.size) := by
  have bound := p.bound
  have inside := p.inside
  change Confined p offset len (checkedAdd offset p.start >>= fun addr =>
      checkedAdd addr len >>= fun stop =>
    if stop > p.size then .err .eio else op ⟨dev, none⟩ addr len) ↔ _
  by_cases lt : offset + p.start < usizeSize
  · rw [checkedAdd_ok lt, ok_bind]
    by_cases lt' : offset + p.start + len < usizeSize
    · rw [checkedAdd_ok lt', ok_bind]
      by_cases beyond : offset + p.start + len > p.size
      · rw [if_pos beyond, confined_err_iff]
        omega
      · rw [if_neg beyond, direct (by omega), Nat.add_comm offset p.start]
        have fits : offset + len ≤ p.size := by omega
        simpa using ⟨fun _ => by omega, fun _ => confined_ok fits⟩
    · rw [checkedAdd_err lt', err_bind, confined_err_iff]
      omega
  · rw [checkedAdd_err lt, err_bind, confined_err_iff]
    omega

end Media

/-- When a call at a relative offset keeps to its partition. -/
def Part.Holds (p : Part dev) (offset len : Nat) : Layer → Call → Prop
  | .part, .read => offset + len ≤ p.size → dev.cached = true
  | .part, .write => offset + len ≤ p.size → dev.cached = true
  | .part, .writeZeroes => if offset + len ≤ p.size then dev.cached = true ∧
    (p.start = 0 ∨ len = 0)
      else dev.cached = true → dev.len < offset + len
  | .part, .sync => usizeSize ≤ p.start + offset ∨
      p.start + offset ≤ p.stop ∧ (dev.cached = true ↔ offset + len ≤ p.size)
  | .media, _ => offset + len ≤ p.size → p.start + offset + len ≤ p.size

theorem partition_confined (dev : BlockDevice) (p : Part dev) (layer : Layer) (call : Call)
    (offset len : Nat) :
    Confined p offset len (p.access layer call offset len) ↔ p.Holds offset len layer call := by
  cases layer with
  | part =>
    cases call with
    | read | write => exact confined_bytes p
    | writeZeroes => exact confined_zeroes p
    | sync => exact confined_sync p
  | media =>
    cases call with
    | read | write => exact confined_media p direct_bytes
    | writeZeroes => exact confined_media p direct_zeroes
    | sync => exact confined_media p direct_sync

/-- Two sectors, the second of which is a partition. -/
def twoSectors : BlockDevice := ⟨1024, true, by decide⟩

def secondSector : Part twoSectors := ⟨⟨512, 1024⟩, by decide, by decide⟩

/-- Zeroes for the first byte of the partition go to the first byte of the device, a
sync past its end subtracts below zero, and the media refuses to read its second
half. -/
theorem not_partition_confined : ¬ Confined secondSector 0 1 (secondSector.access .part
    .writeZeroes 0 1) ∧ ¬ Confined secondSector 600 1 (secondSector.access .part .sync 600 1) ∧
    ¬ Confined secondSector 0 1 (secondSector.access .media .read 0 1) := by
  refine ⟨fun h => ?_, fun h => ?_, fun h => ?_⟩
  · have := (h.inside ⟨0, 1⟩ (by decide) 0 ⟨by decide, by decide⟩).1
    revert this
    decide
  · exact h.no_wrap (by decide)
  · obtain ⟨t, eq⟩ := h.accepted.mpr (by decide)
    cases eq

end BadgerOS.Partition
