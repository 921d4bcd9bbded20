import BadgerOS.Ramfs.LinkCounts

/-!
# RamFs and a tree of inodes

To its users the file system is a map from inodes to contents: bytes, or the inodes
that names stand for. `Act` is what each call does to that map when it succeeds, and
`RamFs.tree` is the map that the inodes and the table stand for.
-/

namespace BadgerOS.Ramfs

open Function Option List

open Bytes (Byte)
open Fallible

/-! ### The tree -/

inductive Content where
  | directory (entries : Name → Option Nat)
  | regular (bytes : List Byte)
  /-- What no call changes. -/
  | special (spec : MakeFileSpec)

def Content.ofSpec : MakeFileSpec → Content
  | .directory => directory fun _ => none
  | .regular => regular []
  | spec => special spec

def Content.type : Content → InodeType
  | directory _ => .directory
  | regular _ => .regular
  | special spec => spec.data.nodeType

abbrev Tree := Nat → Option Content

/-- What a successful call answers and does. -/
inductive Act : Call → Tree → Answer → Tree → Prop
  | write {t : Tree} {node offset : Nat} {bytes data : List Byte}
    (file : t node = some (.regular bytes))
      (within : offset + data.length ≤ bytes.length) :
      Act (.write node offset (data.map some)) t .done (update t node
        (some (.regular (bytes.take offset ++ data ++ bytes.drop (offset + data.length)))))
  | read {t : Tree} {node offset len : Nat} {bytes : List Byte}
    (file : t node = some (.regular bytes))
      (within : offset + len ≤ bytes.length) :
      Act (.read node offset len true) t (.bytes ((bytes.drop offset).take len)) t
  | resize {t : Tree} {node size : Nat} {bytes : List Byte} {room : Bool}
    (file : t node = some (.regular bytes)) :
      Act (.resize node size room) t .done (update t node
        (some (.regular (bytes.take size ++ List.replicate (size - bytes.length) 0))))
  | makeFile {t : Tree} {dir node : Nat} {name : Name} {spec : MakeFileSpec}
    {entries : Name → Option Nat}
      {d : Dirent} (map : t dir = some (.directory entries)) (free : entries name = none)
        (new : t node = none)
      (called : d.name = name) (type : d.type = (Content.ofSpec spec).type) :
      Act (.makeFile dir name spec none) t (.made d node) (update
        (update t dir (some (.directory (update entries name (some node)))))
        node (some (.ofSpec spec)))
  | link {t : Tree} {dir node : Nat} {name : Name} {entries : Name → Option Nat}
      (map : t dir = some (.directory entries)) (free : entries name = none) :
      Act (.link dir name node false) t .done
        (update t dir (some (.directory (update entries name (some node)))))
  | unlink {t : Tree} {dir node : Nat} {name : Name} {mode : UnlinkMode}
    {entries : Name → Option Nat}
      (map : t dir = some (.directory entries)) (there : entries name = some node) :
      Act (.unlink dir name mode) t .done
        (update t dir (some (.directory (update entries name none))))
  | rename {t : Tree} {dir node : Nat} {old new : Name} {entries : Name → Option Nat} {d : Dirent}
      (map : t dir = some (.directory entries)) (there : entries old = some node)
      (free : new = old ∨ entries new = none) (called : d.name = new)
      (type : (t node).map Content.type = some d.type) :
      Act (.rename dir old new) t (.dirent d) (update t dir
        (some (.directory (update (update entries old none) new (some node)))))
  | renameTo {t : Tree} {src dest node : Nat} {old new : Name} {entries entries' : Name →
    Option Nat} {d : Dirent}
      (map : t src = some (.directory entries)) (there : entries old = some node)
        (apart : src ≠ dest)
      (map' : t dest = some (.directory entries')) (free : entries' new = none)
        (called : d.name = new)
      (type : (t node).map Content.type = some d.type) :
      Act (.renameTo src old dest new) t (.dirent d) (update
        (update t src (some (.directory (update entries old none))))
        dest (some (.directory (update entries' new (some node)))))

variable {node offset : Nat} {a : Answer}

/-- What is read after a write is what was written. -/
theorem Act.read_back {t t₁ t₂ : Tree} {data : List Byte}
    (written : Act (.write node offset (data.map some)) t .done t₁)
    (then_read : Act (.read node offset data.length true) t₁ a t₂) : a = .bytes data := by
  generalize whole : data.map some = wdata at written
  cases written with
  | write file within =>
    rename_i bytes data'
    have same := (List.map_injective_iff.mpr (fun _ _ => Option.some.inj) whole).symm
    subst same
    cases then_read with
    | read file' _ =>
      rw [update_self] at file'
      cases file'
      have front : (bytes.take offset).length = offset := by
        rw [length_take]
        omega
      rw [append_assoc, drop_left' front, take_left' rfl]

theorem Act.written {t t' : Tree} {wdata : UserSlice}
    (written : Act (.write node offset wdata) t a t') :
    ∃ bytes, t' node = some (.regular bytes) ∧ offset + wdata.length ≤ bytes.length := by
  cases written with
  | write file within =>
    refine ⟨_, update_self .., ?_⟩
    simp only [length_map, length_append, length_take, length_drop]
    omega

/-! ### The tree of the file system -/

variable {s : RamFs} {n : RamINode} {k : Nat} {es : Directory} {name : Name} {d : Dirent}
  {f : RamINode → RamINode}

/-- A name stands for the inode that the table has under the number of its entry. -/
def names (table : Nat → Option Nat) (es : Directory) (name : Name) : Option Nat :=
  (es.lookup name).bind fun d => table d.ino

def content (table : Nat → Option Nat) : RamFsData → Content
  | .directory es => .directory (names table es)
  | .regular bytes => .regular bytes
  | .fifo => .special .fifo
  | .charDev dev => .special (.charDev dev)
  | .blockDev dev => .special (.blockDev dev)
  | .symlink items => .special (.symlink items)
  | .unixSocket => .special .unixSocket

def RamFs.tree (s : RamFs) : Tree := fun k => s.nodes[k]?.map fun n => content s.inodes n.data

variable {table : Nat → Option Nat}

theorem type_content (data : RamFsData) : (content table data).type = data.nodeType := by
  cases data <;> rfl

theorem content_spec (table : Nat → Option Nat) (spec : MakeFileSpec) :
    content table spec.data = .ofSpec spec := by
  cases spec <;> rfl

theorem content_directory : content table (.directory es) = .directory (names table es) := rfl

theorem names_of (table : Nat → Option Nat) (entry : es.lookup name = some d) :
    names table es name = table d.ino := by
  unfold names
  rw [entry]
  rfl

theorem names_none (table : Nat → Option Nat) (free : es.lookup name = none) :
    names table es name = none := by
  unfold names
  rw [free]
  rfl

theorem names_insert : names table (es.insert name d) = update (names table es) name
    (table d.ino) := by
  funext name'
  by_cases same : name' = name
  · subst same
    rw [update_self]
    exact names_of table (AList.lookup_insert es)
  · rw [update_of_ne same]
    unfold names
    rw [AList.lookup_insert_ne same]

theorem names_erase : names table (es.erase name) = update (names table es) name none := by
  funext name'
  by_cases same : name' = name
  · subst same
    rw [update_self]
    exact names_none table (AList.lookup_erase name' es)
  · rw [update_of_ne same]
    unfold names
    rw [AList.lookup_erase_ne same]

theorem RamFs.exists_regular {bytes : List Byte} (file : s.tree k = some (.regular bytes)) :
    ∃ n, s.nodes[k]? = some n ∧ n.data.asRegular = some bytes := by
  obtain ⟨n, there, data⟩ := map_eq_some_iff.mp file
  refine ⟨n, there, ?_⟩
  cases kind : n.data <;> rw [kind] at data <;> cases data
  rfl

section

variable (there : s.nodes[k]? = some n)
include there

theorem RamFs.tree_of : s.tree k = some (content s.inodes n.data) := by
  unfold RamFs.tree
  rw [there]
  rfl

theorem RamFs.tree_change : (s.change k f).tree = update s.tree k
    (some (content s.inodes (f n).data)) := by
  funext j
  unfold RamFs.tree
  rw [RamFs.getElem?_change]
  by_cases same : j = k
  · subst same
    rw [update_self, there, map_some, map_some, if_pos rfl]
    rfl
  · rw [update_of_ne same]
    simp only [Ne.symm same, if_false, Option.map_id']
    rfl

/-- Nothing changes for the tree if the data does not. -/
theorem RamFs.tree_change_same (same : (f n).data = n.data) : (s.change k f).tree = s.tree := by
  rw [RamFs.tree_change there, same, ← RamFs.tree_of there, update_eq_self]

end

/-- The table matters for the numbers that entries have. -/
theorem RamFs.tree_table (table : Nat → Option Nat) (same : ∀ {k : Nat} {n : RamINode} {name d},
    s.nodes[k]? = some n → n.entries.lookup name = some d →
    table d.ino = s.inodes d.ino) : RamFs.tree { s with inodes := table } = s.tree := by
  funext k
  unfold RamFs.tree
  cases there : s.nodes[k]? with
  | none => rfl
  | some n =>
    rw [map_some, map_some]
    congr 1
    cases data : n.data with
    | directory es =>
      apply congrArg Content.directory
      funext name
      cases entry : es.lookup name with
      | none => rw [names_none _ entry, names_none _ entry]
      | some d =>
        rw [names_of _ entry, names_of _ entry]
        apply same there
        rw [RamINode.entries_of_directory data, entry]
    | _ => rfl

theorem RamFs.change_self (there : s.nodes[k]? = some n) (same : f n = n) : s.change k f = s := by
  unfold RamFs.change
  congr 1
  apply ext_getElem?
  intro j
  by_cases here : k = j
  · subst here
    simp [there, same]
  · simp [here]

end BadgerOS.Ramfs
