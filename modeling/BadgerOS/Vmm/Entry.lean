import BadgerOS.Machine
import BadgerOS.Types

/-!
# Map entries

The flags of `mem/vmm/mod.rs` and `mem/vmm/physmap.rs`, and the entries of
`mem/vmm/map.rs` with their anonymous overlay. What the code asks of the rest
of the kernel is answered by an `Env`: each request is answered once, at its
tick. A heap allocation that succeeds at tick `t` has the address `t`.
-/

namespace BadgerOS.Vmm

abbrev ProtFlags := BitVec 8
abbrev MapFlags := BitVec 32
abbrev MmuFlags := BitVec 32

namespace Prot

def READ : ProtFlags := 0x01#8
def WRITE : ProtFlags := 0x02#8
def EXEC : ProtFlags := 0x04#8
def WC : ProtFlags := 0x08#8
/-- Memory-mapped I/O. -/
def IOMEM : ProtFlags := 0x10#8

end Prot

namespace Mmu

def R : MmuFlags := 0x002#32
def W : MmuFlags := 0x004#32
def X : MmuFlags := 0x008#32
def U : MmuFlags := 0x010#32
def G : MmuFlags := 0x020#32
def A : MmuFlags := 0x040#32
def D : MmuFlags := 0x080#32
def REFCOUNT : MmuFlags := 0x100#32
/-- Memory-mapped I/O. -/
def IOMEM : MmuFlags := 0x400#32
def WC : MmuFlags := 0x800#32
def RWX : MmuFlags := R ||| W ||| X

end Mmu

def SHARED : MapFlags := 0x01#32
def PRIVATE : MapFlags := 0x02#32
def FIXED : MapFlags := 0x10#32
def DENYWRITE : MapFlags := 0x40#32
def POPULATE : MapFlags := 0x8000#32

/-- Some bit of the mask is set. -/
abbrev Has {n : Nat} (flags mask : BitVec n) : Prop := flags &&& mask ≠ 0

/-- Convert MMU flags into prot flags. -/
def fromMmuFlags (mmu : MmuFlags) : ProtFlags :=
  (if Has mmu Mmu.R then Prot.READ else 0) ||| (if Has mmu Mmu.W then Prot.WRITE else 0) |||
  (if Has mmu Mmu.X then Prot.EXEC else 0) ||| (if Has mmu Mmu.WC then Prot.WC else 0) |||
  (if Has mmu Mmu.IOMEM then Prot.IOMEM else 0)

/-- Convert prot flags into MMU flags. -/
def intoMmuFlags (prot : ProtFlags) : MmuFlags :=
  (if Has prot Prot.READ then Mmu.R else 0) ||| (if Has prot Prot.WRITE then Mmu.W else 0) |||
  (if Has prot Prot.EXEC then Mmu.X else 0) ||| (if Has prot Prot.WC then Mmu.WC else 0) |||
  (if Has prot Prot.IOMEM then Mmu.IOMEM else 0)

/-- A page that can be memory-mapped. -/
structure MappablePage where
  paddr : Nat
  refcounted : Bool
  writable : Bool
  tracksDirty : Bool
  deriving DecidableEq, Repr

def MappablePage.clearWritable (page : MappablePage) : MappablePage :=
  { page with writable := false }

/-- The answers of the rest of the kernel. -/
structure Env where
  /-- Whether a heap allocation succeeds. -/
  allocOk : Nat → Bool
  /-- Whether a file has room to note one more mapping. -/
  reserveOk : Nat → Bool
  /-- The page that `page_alloc(0, UserAnon)` returns. -/
  pageAlloc : Nat → Option Nat
  /-- `MemObject::get` of an object at an offset. -/
  objectGet : Nat → Nat → Nat → Option (MappablePage × Nat)
  /-- `MemObject::alloc` of an object at an offset. -/
  objectAlloc : Nat → Nat → Nat → Except Errno (MappablePage × Nat)
  /-- `MemObject::len`. -/
  objectLen : Nat → Nat → Nat
  /-- The bytes of a range that are mapped before page tables run out. -/
  tables : Nat → Nat → Nat
  /-- The pages that share a leaf entry with the range `protect` rewrites. -/
  spill : Nat → Nat → Bool
  /-- The objects that are files. -/
  isVNode : Nat → Bool
  zeroesPaddr : Nat
  canonHalfSize : Nat

/-- A fallible heap allocation at tick `t`. -/
def tryAlloc (env : Env) (t : Nat) : Except Errno Nat × Nat :=
  (if env.allocOk t then .ok t else .error .enomem, t + 1)

/-- Get a mappable page for the page full of zeroes. -/
def zeroesPage (env : Env) : MappablePage := ⟨env.zeroesPaddr, false, false, false⟩

/-- A counted reference: the address of the allocation and what it holds. -/
structure Arc (α : Type) where
  ptr : Nat
  val : α
  deriving DecidableEq, Repr

/-- Specification for how to map a memory object. -/
structure Mapping where
  offset : Nat
  object : Nat
  deriving DecidableEq, Repr

/-- The anonymous overlay of an entry. An anon is identified by its page. -/
structure AnonMap where
  offset : Nat
  pages : List (Option Nat)
  deriving DecidableEq, Repr

namespace AnonMap

/-- Split this entry into two starting at `offset`. `first` is empty when its
length is used, so it gets no page and `second` gets all of them. -/
def split (env : Env) (self : AnonMap) (offset t : Nat) :
    Except Errno (Option AnonMap × Option AnonMap) × Nat :=
  if offset < self.offset then (.ok (none, some self), t)
  else if offset = self.offset then (.ok (some self, none), t)
  else match tryAlloc env t with
    | (.error e, t) => (.error e, t)
    | (.ok _, t) =>
      let first : List (Option Nat) := []
      match tryAlloc env t with
      | (.error e, t) => (.error e, t)
      | (.ok _, t) =>
        let second := self.pages.drop first.length
        let first := self.pages.take first.length
        (.ok (some ⟨self.offset, first⟩, some ⟨offset, second⟩), t)

/-- The anon at `offset`. -/
def anonAt (self : AnonMap) (offset : Nat) : Option Nat :=
  if offset < self.offset then none
  else (self.pages[(offset - self.offset) / pageSize]?).join

/-- Get the page currently mapped at `offset`; `unique` says which anons have one handle. -/
def getPage (self : AnonMap) (unique : Nat → Bool) (offset : Nat) : Option MappablePage :=
  (self.anonAt offset).map fun paddr => ⟨paddr, false, unique paddr, false⟩

/-- The part of `alloc_page` that makes room for the page at `offset`. The count
of new slots behind the last one is in bytes, so it is larger than needed. -/
def grow (env : Env) (self : AnonMap) (offset t : Nat) : Except Errno Unit × AnonMap × Nat :=
  if self.pages.length = 0 then
    match tryAlloc env t with
    | (.error e, t) => (.error e, { self with offset := offset }, t)
    | (.ok _, t) => (.ok (), ⟨offset, self.pages ++ [none]⟩, t)
  else if offset < self.offset then
    let shift := (self.offset - offset) / pageSize
    match tryAlloc env t with
    | (.error e, t) => (.error e, self, t)
    | (.ok _, t) =>
      (.ok (), ⟨self.offset - shift * pageSize, List.replicate shift none ++ self.pages⟩, t)
  else if offset ≥ self.offset + self.pages.length * pageSize then
    let shift := offset + 1 - self.offset - self.pages.length * pageSize
    match tryAlloc env t with
    | (.error e, t) => (.error e, self, t)
    | (.ok _, t) => (.ok (), { self with pages := self.pages ++ List.replicate shift none }, t)
  else (.ok (), self, t)

end AnonMap

/-- The contents of physical pages, by their address. -/
abbrev Memory := Nat → Nat → BitVec 8

/-- Get or allocate the page at `offset`; the data of the page `orig` is copied. -/
def AnonMap.allocPage (env : Env) (self : AnonMap) (offset : Nat) (orig : Option Nat) (mem : Memory)
    (t : Nat) : Except Errno MappablePage × AnonMap × Memory × Nat :=
  match self.grow env offset t with
  | (.error e, self, t) => (.error e, self, mem, t)
  | (.ok _, self, t) =>
    match env.pageAlloc t with
    | none => (.error .enomem, self, mem, t + 1)
    | some newPage =>
      match tryAlloc env (t + 1) with
      | (.error e, t) => (.error e, self, mem, t)
      | (.ok _, t) =>
        let data := match orig with
          | some orig => mem orig
          | none => fun _ => 0
        let pages := self.pages.set ((offset - self.offset) / pageSize) (some newPage)
        (.ok ⟨newPage, false, true, false⟩, { self with pages := pages },
          Function.update mem newPage data, t)

/-- The state of an entry under its lock. -/
structure MapEntryInner where
  protFlags : ProtFlags
  mapFlags : MapFlags
  amap : Option (Arc AnonMap)
  mapping : Option Mapping
  deriving DecidableEq, Repr

/-- The handles of the counted references that an entry can reach. -/
structure Handles where
  amapUnique : Nat → Bool
  anonUnique : Nat → Bool

namespace MapEntryInner

/-- `Arc::try_new` for one half of a split overlay. -/
def newAmap (env : Env) (amap : Option AnonMap) (t : Nat) :
    Except Errno (Option (Arc AnonMap)) × Nat :=
  match amap with
  | none => (.ok none, t)
  | some amap =>
    match tryAlloc env t with
    | (.error e, t) => (.error e, t)
    | (.ok ptr, t) => (.ok (some ⟨ptr, amap⟩), t)

/-- Split this entry into two starting at `offset` within this mapping. Both
halves keep the offset within the memory object. -/
def split (env : Env) (self : MapEntryInner) (offset t : Nat) :
    Except Errno (MapEntryInner × MapEntryInner) × Nat :=
  match self.amap with
  | none => (.ok ({ self with amap := none }, { self with amap := none }), t)
  | some amap =>
    match amap.val.split env offset t with
    | (.error e, t) => (.error e, t)
    | (.ok (amap0, amap1), t) =>
      match newAmap env amap0 t with
      | (.error e, t) => (.error e, t)
      | (.ok amap0, t) =>
        match newAmap env amap1 t with
        | (.error e, t) => (.error e, t)
        | (.ok amap1, t) => (.ok ({ self with amap := amap0 }, { self with amap := amap1 }), t)

/-- The anon page at `offset`, writable if both the overlay and the anon have one handle. -/
def getAnon (self : MapEntryInner) (handles : Handles) (offset : Nat) : Option MappablePage :=
  self.amap.bind fun amap => (amap.val.getPage handles.anonUnique offset).map fun page =>
    if handles.amapUnique amap.ptr then page else page.clearWritable

/-- Get the page currently mapped at `offset`, and how many bytes contiguous it is. -/
def getPage (env : Env) (self : MapEntryInner) (handles : Handles) (offset t : Nat) :
    Option (MappablePage × Nat) :=
  match self.getAnon handles offset with
  | some page => some (page, pageSize)
  | none =>
    match self.mapping with
    | some mapping => (env.objectGet mapping.object (offset + mapping.offset) t).map
        fun (page, len) =>
        (if Has self.mapFlags SHARED then page else page.clearWritable, len)
    | none => some (zeroesPage env, pageSize)

/-- The page that `alloc_page` finds without a copy, or the page to copy. -/
inductive Source where
  | mappable (page : MappablePage) (len : Nat)
  | copy (orig : Option Nat)

/-- The first half of `alloc_page`: find the page, and whether it has to be copied. -/
def findPage (env : Env) (self : MapEntryInner) (handles : Handles) (offset : Nat)
    (forWriting : Bool) (t : Nat) : Except Errno Source × Nat :=
  match self.getAnon handles offset with
  | some page =>
    if forWriting = false ∨ page.writable then (.ok (.mappable page pageSize), t)
    else (.ok (.copy (some page.paddr)), t)
  | none =>
    let paddr : Except Errno (MappablePage × Nat) := match self.mapping with
      | some mapping => env.objectAlloc mapping.object (offset + mapping.offset) t
      | none => .ok (zeroesPage env, pageSize)
    match paddr with
    | .error e => (.error e, t + 1)
    | .ok (page, len) =>
      if forWriting = false ∨ (Has self.mapFlags SHARED ∧ self.mapping.isSome) then
        (.ok (.mappable (if Has self.mapFlags SHARED then page else page.clearWritable) len), t + 1)
      else (.ok (.copy (if self.mapping.isSome then some page.paddr else none)), t + 1)

/-- A mutable overlay: the entry's own, a copy of a shared one, or a new one. -/
def ownAmap (env : Env) (self : MapEntryInner) (handles : Handles) (t : Nat) :
    Except Errno (Arc AnonMap) × Nat :=
  match self.amap with
  | some amap =>
    if handles.amapUnique amap.ptr then (.ok amap, t)
    else match tryAlloc env t with
      | (.error e, t) => (.error e, t)
      | (.ok ptr, t) => (.ok ⟨ptr, amap.val⟩, t)
  | none =>
    match tryAlloc env t with
    | (.error e, t) => (.error e, t)
    | (.ok ptr, t) => (.ok ⟨ptr, ⟨0, []⟩⟩, t)

/-- Get or allocate the page at `offset`, and how many bytes contiguous it is. -/
def allocPage (env : Env) (self : MapEntryInner) (handles : Handles) (offset : Nat)
    (forWriting : Bool) (mem : Memory) (t : Nat) :
    Except Errno (MappablePage × Nat) × MapEntryInner × Memory × Nat :=
  match self.findPage env handles offset forWriting t with
  | (.error e, t) => (.error e, self, mem, t)
  | (.ok (.mappable page len), t) => (.ok (page, len), self, mem, t)
  | (.ok (.copy orig), t) =>
    match self.ownAmap env handles t with
    | (.error e, t) => (.error e, self, mem, t)
    | (.ok amap, t) =>
      match amap.val.allocPage env offset orig mem t with
      | (.error e, val, mem, t) =>
        (.error e, { self with amap := some ⟨amap.ptr, val⟩ }, mem, t)
      | (.ok page, val, mem, t) =>
        (.ok (page, pageSize), { self with amap := some ⟨amap.ptr, val⟩ }, mem, t)

end MapEntryInner

end BadgerOS.Vmm
