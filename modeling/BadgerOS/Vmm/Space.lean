import BadgerOS.Lib.Fallible
import BadgerOS.Vmm.Entry

/-!
# Address spaces

`VmSpaceInner` of `mem/vmm/map.rs`, as actions on the state of the kernel. The
page tables of a space are the flat map that they implement.
-/

namespace BadgerOS.Vmm

/-- One contiguous range of mapped memory; `ptr` is the address of its box. -/
structure MapEntry where
  ptr : Nat
  start : Nat
  stop : Nat
  inner : MapEntryInner
  deriving DecidableEq, Repr

def MapEntry.setInner (inner : MapEntryInner) (entry : MapEntry) : MapEntry :=
  { entry with inner := inner }

/-- The entry of one page in the flat view of a page table. -/
structure Pte where
  paddr : Nat
  flags : MmuFlags
  deriving DecidableEq, Repr

/-- A page table by page number. -/
abbrev PhysMap := Nat → Option Pte

namespace PhysMap

/-- The page number lies in the `size` bytes from `vaddr` on. -/
abbrev InPages (vaddr size page : Nat) : Prop :=
  vaddr / pageSize ≤ page ∧ page < vaddr / pageSize + size / pageSize

def unmapMultiple (vaddr size : Nat) (pmap : PhysMap) : PhysMap :=
  fun page => if InPages vaddr size page then none else pmap page

def mapMultiple (vaddr paddr : Nat) (flags : MmuFlags) (len : Nat) (pmap : PhysMap) : PhysMap :=
  fun page =>
    if InPages vaddr len page then some ⟨paddr + (page - vaddr / pageSize) * pageSize, flags⟩
    else pmap page

/-- A leaf is rewritten as a whole, so pages beside the range may lose
permissions too: those that `spill` names. -/
def protect (spill : Nat → Bool) (vaddr size : Nat) (maxProt : MmuFlags)
    (pmap : PhysMap) : PhysMap :=
  fun page =>
    if InPages vaddr size page ∨ spill page then
      (pmap page).map fun pte => { pte with flags := pte.flags &&& (maxProt ||| ~~~ Mmu.RWX) }
    else pmap page

end PhysMap

/-- Virtual address-space map; `ptr` is its address. -/
structure Space where
  ptr : Nat
  map : List MapEntry
  pmap : PhysMap

/-- What a file knows of its mappings. -/
structure VNode where
  mappings : List (Nat × Nat)
  denywrite : Int

/-- The address spaces and the state they share. An entry that `fork` loses on
an error stays allocated. -/
structure World where
  spaces : List Space
  leaked : List MapEntry
  vnodes : Nat → VNode
  mem : Memory
  tick : Nat

namespace World

/-- All entries that hold references. -/
def entries (w : World) : List MapEntry := w.spaces.flatMap (·.map) ++ w.leaked

/-- The overlays, each once. -/
def amaps (w : World) : List (Arc AnonMap) := (w.entries.filterMap (·.inner.amap)).dedup

/-- `Arc::is_unique` for overlays and anons. -/
def handles (w : World) : Handles where
  amapUnique ptr := (w.entries.countP fun e => e.inner.amap.map (·.ptr) = some ptr) = 1
  anonUnique paddr := ((w.amaps.map fun amap => amap.val.pages.count (some paddr)).sum) = 1

def setMap (w : World) (i : Nat) (map : List MapEntry) : World :=
  { w with spaces := w.spaces.modify i fun s => { s with map := map } }

def setVNode (w : World) (object : Nat) (vnode : VNode) : World :=
  { w with vnodes := Function.update w.vnodes object vnode }

def setPmap (w : World) (i : Nat) (f : PhysMap → PhysMap) : World :=
  { w with spaces := w.spaces.modify i fun s => { s with pmap := f s.pmap } }

def setInner (w : World) (i j : Nat) (inner : MapEntryInner) : World :=
  { w with spaces := w.spaces.modify i fun s =>
      { s with map := s.map.modify j (MapEntry.setInner inner) } }

end World

/-- The functions that may return an error or panic. -/
abbrev Kernel := Fallible World Errno

open Fallible

/-- `debug_assert!` and `assert!`. -/
def assert (p : Prop) [Decidable p] : Kernel Unit := lift (debugAssert p)

/-- A fallible heap allocation; returns its address. -/
def allocate (env : Env) : Kernel Nat := fun w =>
  let (ptr, t) := tryAlloc env w.tick
  some (ptr, { w with tick := t })

/-- `try_reserve(1)` of the mappings of a file. -/
def tryReserve (env : Env) : Kernel Unit := fun w =>
  some (if env.reserveOk w.tick then .ok () else .error .enomem, { w with tick := w.tick + 1 })

def space (i : Nat) : Kernel Space := fun w => (w.spaces[i]?).map fun s => (.ok s, w)

def modifyVNode (object : Nat) (f : VNode → VNode) : Kernel Unit :=
  modify fun w => w.setVNode object (f (w.vnodes object))

/-- Called when a new mapping entry is made with this memory object. -/
def onMapped (env : Env) (object : Nat) (denywrite : Bool) (vmspace range : Nat) : Kernel Unit :=
  if env.isVNode object = false then pure ()
  else do
    let w ← get
    if denywrite ∧ (w.vnodes object).denywrite < 0 then fail .etxtbsy
    else do
      if denywrite then modifyVNode object fun v => { v with denywrite := v.denywrite + 1 }
      tryReserve env
      modifyVNode object fun v => { v with mappings := v.mappings ++ [(vmspace, range)] }

/-- Called when a previous mapping created by `on_mapped` is removed. -/
def onUnmapped (env : Env) (object : Nat) (denywrite : Bool) (range : Nat) : Kernel Unit :=
  if env.isVNode object = false then pure ()
  else do
    let w ← get
    assert (denywrite → (w.vnodes object).denywrite ≥ 1)
    if denywrite then modifyVNode object fun v => { v with denywrite := v.denywrite - 1 }
    modifyVNode object fun v => { v with mappings := v.mappings.filter (·.2 ≠ range) }

/-- The loop of `split`. After a split it goes on with the new entry, which
starts at the threshold and is left alone. -/
def splitEntries (env : Env) (threshold : Nat) : List MapEntry → Nat →
    Except Errno Unit × List MapEntry × Nat
  | [], t => (.ok (), [], t)
  | entry :: rest, t =>
    if entry.start < threshold ∧ entry.stop > threshold then
      match entry.inner.split env (threshold - entry.start) t with
      | (.error e, t) => (.error e, entry :: rest, t)
      | (.ok (first, second), t) =>
        match tryAlloc env t with
        | (.error e, t) => (.error e, entry :: rest, t)
        | (.ok ptr, t) =>
          let new : MapEntry := ⟨ptr, threshold, entry.stop, second⟩
          let (r, rest, t) := splitEntries env threshold rest t
          (r, { entry with stop := threshold, inner := first } :: new :: rest, t)
    else
      let (r, rest, t) := splitEntries env threshold rest t
      (r, entry :: rest, t)

/-- Replace the list of a space by its split one, also when the split failed. -/
def splitMap (env : Env) (i threshold : Nat) (s : Space) : Kernel Unit := fun w =>
  let (r, map, t) := splitEntries env threshold s.map w.tick
  some (r, { w.setMap i map with tick := t })

/-- Try to split the mappings so that they do not cross `threshold`. -/
def split (env : Env) (i threshold : Nat) : Kernel Unit := do
  assert (threshold % pageSize = 0)
  let s ← space i
  splitMap env i threshold s

/-- The entries that `remove_mappings` keeps, and those it takes out. -/
def removeEntries (start stop : Nat) : List MapEntry → List MapEntry × List MapEntry
  | [] => ([], [])
  | entry :: rest =>
    if entry.start ≥ stop then (entry :: rest, [])
    else
      let (kept, removed) := removeEntries start stop rest
      if start ≤ entry.start ∧ entry.start < stop then (kept, entry :: removed)
      else (entry :: kept, removed)

/-- Tell the object of an entry, if it has one, that the entry is removed. -/
def withdraw (env : Env) (entry : MapEntry) : Kernel Unit :=
  match entry.inner.mapping with
  | some m => onUnmapped env m.object (Has entry.inner.mapFlags DENYWRITE) entry.ptr
  | none => pure ()

/-- What `remove_mappings` does for each entry that it takes out. -/
def unregister (env : Env) (i : Nat) : List MapEntry → Kernel Unit
  | [] => pure ()
  | entry :: rest => do
    modify (·.setPmap i (PhysMap.unmapMultiple entry.start (entry.stop - entry.start)))
    withdraw env entry
    unregister env i rest

/-- Removes entries within the bounds. -/
def removeMappings (env : Env) (i start stop : Nat) : Kernel Unit := do
  assert (start % pageSize = 0)
  assert (stop % pageSize = 0)
  let s ← space i
  let (kept, removed) := removeEntries start stop s.map
  modify (·.setMap i kept)
  unregister env i removed

/-- The loop of `insert_mapping`. -/
def insertEntry (insert : MapEntry) : Nat → List MapEntry → Option (List MapEntry)
  | _, [] => some [insert]
  | prev, entry :: rest => do
    debugAssert (∀ next ∈ rest.head?, next.start ≥ entry.stop)
    if prev ≤ insert.start ∧ entry.start ≥ insert.stop then return insert :: entry :: rest
    let rest ← insertEntry insert entry.stop rest
    return entry :: rest

/-- Insert a new mapping. -/
def insertMapping (map : List MapEntry) (insert : MapEntry) : Option (List MapEntry) := do
  debugAssert (insert.start % pageSize = 0)
  debugAssert (insert.stop % pageSize = 0)
  insertEntry insert 0 map

/-- `VmSpaceInner::MAP_MARGIN`. -/
abbrev mapMargin : Nat := pageSize

def absDiff (a b : Nat) : Nat := a - b + (b - a)

/-- The search of `map_dynamic` for the gap closest to `hint`: the start and the
size of the gap found so far, and the end of the entry before. -/
def findGap (size hint boundsStart : Nat) :
    List MapEntry → Option (Nat × Nat) → Nat → Option (Option (Nat × Nat) × Nat)
  | [], closest, prev => some (closest, prev)
  | entry :: rest, closest, prev =>
    if ∃ c ∈ closest, absDiff prev hint > absDiff c.1 hint then some (closest, prev)
    else do
      let start := max entry.start boundsStart
      let needed ← usizeAdd prev size
      let needed ← usizeAdd needed (2 * mapMargin)
      let closest := if start ≥ needed then some (prev, start - prev) else closest
      findGap size hint boundsStart rest closest (max entry.stop boundsStart)

/-- The gap behind the last entry, if it is no further from `hint`. -/
def lastGap (size hint boundsStop : Nat) (closest : Option (Nat × Nat)) (prev : Nat) :
    Option (Option (Nat × Nat)) :=
  if ∀ c ∈ closest, absDiff prev hint ≤ absDiff c.1 hint then do
    let needed ← usizeAdd prev size
    return if boundsStop ≥ needed then some (prev, boundsStop - prev) else closest
  else some closest

/-- Constrain bounds to the closest range that would fit the mapping. -/
def constrain (size hint start stop : Nat) (map : List MapEntry) :
    Option (Except Errno (Nat × Nat)) :=
  if map.length = 0 then some (.ok (start, stop))
  else do
    let (closest, prev) ← findGap size hint start map none start
    match ← lastGap size hint stop closest prev with
    | none => return .error .enomem
    | some (closest, closestSize) =>
      return .ok (max start closest, min stop (closest + closestSize))

/-- Place a mapping near `hint` within the bounds. -/
def placeWithin (size hint start stop : Nat) : Option (Except Errno Nat) := do
  let needed ← usizeAdd size (2 * mapMargin)
  if stop - start < needed then return .error .enomem
  let first ← usizeAdd start mapMargin
  if hint < first then return .ok first
  let last ← usizeSub stop mapMargin
  if min (hint + size) (usizeSize - 1) > last then
    let addr ← usizeSub stop size
    let addr ← usizeSub addr mapMargin
    return .ok addr
  return .ok hint

/-- The page that `fault_impl` maps: the existing one, unless there is none or it
may not be written to. -/
def MapEntryInner.resolve (env : Env) (self : MapEntryInner) (handles : Handles) (offset : Nat)
    (access : ProtFlags) (mem : Memory) (t : Nat) :
    Except Errno (MappablePage × Nat) × MapEntryInner × Memory × Nat :=
  match self.getPage env handles offset t with
  | none => self.allocPage env handles offset (access = Prot.WRITE) mem (t + 1)
  | some page =>
    if access = Prot.WRITE ∧ page.1.writable = false then
      self.allocPage env handles offset (access = Prot.WRITE) mem (t + 1)
    else (.ok page, self, mem, t + 1)

/-- The flags of the page table entry that `fault_impl` installs. -/
def leafFlags (guard : MapEntryInner) (page : MappablePage) (vaddr : Nat) : MmuFlags :=
  let protFlags :=
    if page.writable = false ∧
      ¬ Has guard.mapFlags SHARED then guard.protFlags &&& ~~~ Prot.WRITE
    else guard.protFlags
  intoMmuFlags protFlags ||| Mmu.A ||| (if 0 < vaddr ∧ vaddr < 2 ^ 63 then Mmu.U else Mmu.G) |||
    (if page.refcounted then Mmu.REFCOUNT else 0) ||| (if page.tracksDirty then 0 else Mmu.D)

/-- What the page table allows at an address. -/
def mappedProt (pmap : PhysMap) (vaddr : Nat) : ProtFlags :=
  match pmap (vaddr / pageSize) with
  | some pte => fromMmuFlags pte.flags
  | none => 0

abbrev pageFloor (vaddr : Nat) : Nat := vaddr - vaddr % pageSize

/-- The end of `fault_impl`: map the page that was found. On success, returns how
many bytes have been mapped after `vaddr`. -/
def installPage (env : Env) (i vaddr stop : Nat) (guard : MapEntryInner) (page : MappablePage)
    (size : Nat) : Kernel Nat := do
  let rest ← lift (usizeSub stop (pageFloor vaddr))
  let len := min size rest
  let w ← get
  let done := min len (env.tables w.tick len)
  modify fun w =>
    { w.setPmap i (PhysMap.mapMultiple (pageFloor vaddr) page.paddr (leafFlags guard page vaddr)
      done) with tick := w.tick + 1 }
  if done < len then fail .enomem
  else lift (usizeSub len (vaddr % pageSize))

/-- Find the page of a fault, which may change the overlay of the entry. -/
def resolvePage (env : Env) (i j offset : Nat) (access : ProtFlags) (entry : MapEntry) :
    Kernel (MappablePage × Nat × MapEntryInner) := fun w =>
  match entry.inner.resolve env w.handles offset access w.mem w.tick with
  | (r, guard, mem, t) =>
    some (r.map fun (page, size) => (page, size, guard),
      { w.setInner i j guard with mem := mem, tick := t })

/-- Handle a fault in an entry. A page that is mapped without the access is
unmapped first, so that it cannot stay in a TLB. -/
def faultImpl (env : Env) (i j vaddr : Nat) (access : ProtFlags) : Kernel Nat := do
  let s ← space i
  let entry ← lift s.map[j]?
  if mappedProt s.pmap (pageFloor vaddr) &&& access = access then
    pure (pageSize - vaddr % pageSize)
  else do
    modify (·.setPmap i (PhysMap.unmapMultiple (pageFloor vaddr) pageSize))
    if entry.inner.protFlags &&& access = 0 then fail .efault
    else do
      let offset ← lift (usizeSub (pageFloor vaddr) entry.start)
      let (page, size, guard) ← resolvePage env i j offset access entry
      installPage env i vaddr entry.stop guard page size

/-- The loop of `fault` over the pages of one entry. It does not end when the
size goes beyond the entry: then the bound runs out. -/
def faultLoop (env : Env) (i j : Nat) (access : ProtFlags) : Nat → Nat → Nat → Kernel Unit
  | 0, _, size => assert (size = 0)
  | bound + 1, vaddr, size =>
    if size = 0 then pure ()
    else do
      let len ← faultImpl env i j vaddr access
      faultLoop env i j access bound (wrappingAdd vaddr len) (size - len)

/-- Handle a page fault at address `vaddr`. -/
def fault (env : Env) (i vaddr : Nat) (access : ProtFlags) (size : Nat) : Kernel Unit := do
  let s ← space i
  let size := max size 1
  match s.map.findIdx? fun entry => entry.start ≤ vaddr ∧ vaddr < entry.stop with
  | some j => faultLoop env i j access (size / pageSize + 2) vaddr size
  | none => fail .efault

/-- Take an entry off the list again. -/
def removeEntry (i ptr : Nat) (w : World) : World :=
  { w with spaces := w.spaces.modify i fun s =>
      { s with map := s.map.filter fun entry => entry.ptr ≠ ptr } }

/-- The end of `map_fixed` and `map_dynamic`: insert the entry and register it
with its object; an entry that cannot be registered is removed again. -/
def insertAndRegister (env : Env) (i : Nat) (insert : MapEntry) : Kernel Unit := do
  let s ← space i
  let map ← lift (insertMapping s.map insert)
  modify (·.setMap i map)
  match insert.inner.mapping with
  | none => pure ()
  | some m =>
    (onMapped env m.object (Has insert.inner.mapFlags DENYWRITE) s.ptr insert.ptr).onError
      (removeEntry i insert.ptr)

/-- Implementation of `map` with the `FIXED` flag. -/
def mapFixed (env : Env) (i size addr : Nat) (mapFlags : MapFlags) (protFlags : ProtFlags)
    (mapping : Option Mapping) : Kernel Unit := do
  assert (addr % pageSize = 0)
  assert (size % pageSize = 0)
  split env i addr
  let stop ← lift (usizeAdd addr size)
  split env i stop
  let ptr ← allocate env
  removeMappings env i addr stop
  insertAndRegister env i ⟨ptr, addr, stop, ⟨protFlags, mapFlags, none, mapping⟩⟩

/-- Implementation of `map` without the `FIXED` flag. -/
def mapDynamic (env : Env) (i size hint start stop : Nat) (mapFlags : MapFlags)
    (protFlags : ProtFlags) (mapping : Option Mapping) : Kernel Nat := do
  assert (hint % pageSize = 0)
  assert (size % pageSize = 0)
  assert (start % pageSize = 0)
  assert (stop % pageSize = 0)
  let s ← space i
  let (start, stop) ← liftExcept (constrain size hint start stop s.map)
  let addr ← liftExcept (placeWithin size hint start stop)
  let ptr ← allocate env
  let stop ← lift (usizeAdd addr size)
  insertAndRegister env i ⟨ptr, addr, stop, ⟨protFlags, mapFlags, none, mapping⟩⟩
  pure addr

/-- The size in whole pages. -/
def roundUp (size : Nat) : Option Nat :=
  let pages := (size + (pageSize - 1)) / pageSize
  if pages * pageSize < usizeSize then some (pages * pageSize) else none

/-- The bytes of the memory object that can be mapped, in whole pages. -/
def mappingSize (env : Env) (mapping : Mapping) (t : Nat) : Option Nat :=
  (usizeSub (env.objectLen mapping.object t) mapping.offset).bind roundUp

/-- The part of `map` under the lock; returns the address of the mapping. -/
def mapLocked (env : Env) (i size hint start stop : Nat) (mapFlags : MapFlags)
    (protFlags : ProtFlags) (mapping : Option Mapping) : Kernel Nat :=
  if Has mapFlags FIXED then do
    mapFixed env i size hint mapFlags protFlags mapping
    pure hint
  else mapDynamic env i size hint start stop mapFlags protFlags mapping

/-- The part of `map` for the `POPULATE` flag. -/
def populate (env : Env) (i size addr : Nat) (mapFlags : MapFlags) (hasMapping : Bool) :
    Kernel Unit :=
  if Has mapFlags POPULATE then fault env i addr (if hasMapping then Prot.READ else Prot.WRITE) size
  else pure ()

/-- Create a new mapping that must exist somewhere within the bounds and try to
place it at `hint`. -/
def map (env : Env) (i size hint start stop : Nat) (mapFlags : MapFlags) (protFlags : ProtFlags)
    (mapping : Option Mapping) : Kernel Nat := do
  assert (hint % pageSize = 0)
  let size ← lift (roundUp size)
  if size = 0 then fail .einval
  else do
    let w ← get
    -- Without an object there is no limit.
    let objectSize ← lift (mapping.elim (some usizeSize) fun m => mappingSize env m w.tick)
    if size > objectSize then fail .enxio
    else do
      let addr ← mapLocked env i size hint start stop mapFlags protFlags mapping
      populate env i size addr mapFlags mapping.isSome
      pure addr

/-- The loop of `protect`, over the entries of the bounds. -/
def protectEntries (start stop : Nat) (protFlags : ProtFlags) : List MapEntry → List MapEntry
  | [] => []
  | entry :: rest =>
    if entry.start ≥ stop then entry :: rest
    else
      (if start ≤ entry.start ∧ entry.start < stop
        then { entry with inner := { entry.inner with protFlags := protFlags } } else entry) ::
      protectEntries start stop protFlags rest

/-- Its effect on the page table. -/
def protectPmap (env : Env) (start stop t : Nat) (protFlags : ProtFlags) : List MapEntry →
    PhysMap → PhysMap
  | [], pmap => pmap
  | entry :: rest, pmap =>
    if entry.start ≥ stop then pmap
    else
      protectPmap env start stop t protFlags rest (if start ≤ entry.start ∧ entry.start < stop
          then pmap.protect (env.spill t) entry.start (entry.stop - entry.start)
            (intoMmuFlags protFlags)
          else pmap)

/-- Change the protection flags for pages within the bounds. -/
def protect (env : Env) (i start stop : Nat) (protFlags : ProtFlags) : Kernel Unit := do
  assert (start % pageSize = 0)
  assert (stop % pageSize = 0)
  split env i start
  split env i stop
  let s ← space i
  modify fun w =>
    { (w.setPmap i (protectPmap env start stop w.tick protFlags s.map)).setMap i
        (protectEntries start stop protFlags s.map) with tick := w.tick + 1 }

/-- The next page boundary. -/
def pageCeil (vaddr : Nat) : Option Nat :=
  if vaddr % pageSize ≠ 0 then usizeAdd vaddr (pageSize - vaddr % pageSize) else some vaddr

/-- Unmap all pages within the bounds. -/
def unmap (env : Env) (i start stop : Nat) : Kernel Unit := do
  let start := pageFloor start
  let stop ← lift (pageCeil stop)
  split env i start
  split env i stop
  removeMappings env i start stop

/-- Writable private mappings need to be CoW'ed: `fork` takes the write permission
of their pages. -/
def cowProtect (env : Env) (entry : MapEntry) (t : Nat) (pmap : PhysMap) : PhysMap :=
  if Has entry.inner.mapFlags PRIVATE ∧ Has entry.inner.protFlags Prot.WRITE then
    pmap.protect (env.spill t) entry.start (entry.stop - entry.start)
      (intoMmuFlags (Prot.READ ||| Prot.EXEC))
  else pmap

/-- The loop of `fork`: the new entries, those made before an error included,
and the page table of the parent. -/
def forkEntries (env : Env) : List MapEntry → PhysMap → Nat →
    Except Errno Unit × List MapEntry × PhysMap × Nat
  | [], pmap, t => (.ok (), [], pmap, t)
  | entry :: rest, pmap, t =>
    let pmap := cowProtect env entry t pmap
    match tryAlloc env t with
    | (.error e, t) => (.error e, [], pmap, t)
    | (.ok ptr, t) =>
      let (r, new, pmap, t) := forkEntries env rest pmap t
      (r, { entry with ptr := ptr } :: new, pmap, t)

/-- Clone the entries of a space. Those made before an error are never freed. -/
def cloneMap (env : Env) (i : Nat) (s : Space) : Kernel (List MapEntry) := fun w =>
  match forkEntries env s.map s.pmap w.tick with
  | (.error e, new, pmap, t) =>
    some (.error e, { w.setPmap i (fun _ => pmap) with tick := t, leaked := w.leaked ++ new })
  | (.ok _, new, pmap, t) => some (.ok new, { w.setPmap i (fun _ => pmap) with tick := t })

/-- Clone this virtual-address space as needed for the `fork` system call. -/
def fork (env : Env) (i : Nat) : Kernel Unit := do
  let s ← space i
  let new ← cloneMap env i s
  -- The root of the new page table.
  let ptr ← (allocate env).onError fun w => { w with leaked := w.leaked ++ new }
  modify fun w => { w with spaces := w.spaces ++ [⟨ptr, new, fun _ => none⟩] }

/-- Clear the entire address-space. The objects are not told. -/
def clear (i : Nat) : Kernel Unit :=
  modify fun w => { w with spaces := w.spaces.modify i fun s =>
    { s with
      map := []
      pmap := s.map.foldl
        (fun pmap entry => pmap.unmapMultiple entry.start (entry.stop - entry.start)) s.pmap } }

/-- Drop the address-space. The objects are not told. -/
def dropSpace (i : Nat) : Kernel Unit := modify fun w => { w with spaces := w.spaces.eraseIdx i }

/-- `VmSpace::map`, the entry point for user memory. -/
def userMap (env : Env) (i size hint : Nat) (mapFlags : MapFlags) (protFlags : ProtFlags)
    (mapping : Option Mapping) : Kernel Nat :=
  if hint % pageSize ≠ 0 then fail .einval
  else if Has mapFlags FIXED ∧
      (hint = 0 ∨ min (hint + size) (usizeSize - 1) ≥ env.canonHalfSize - pageSize) then
    fail .einval
  else map env i size hint (env.canonHalfSize / 2) env.canonHalfSize mapFlags
    (protFlags &&& ~~~ Prot.IOMEM &&& ~~~ Prot.WC) mapping

end BadgerOS.Vmm
