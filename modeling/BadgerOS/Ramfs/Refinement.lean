import BadgerOS.Ramfs.Tree

/-!
# RamFs acts on the tree

Each call that succeeds acts on the tree of inodes, and each that fails leaves the
inodes as they were, as long as the calls are `sound`.
-/

namespace BadgerOS.Ramfs

open Function List RamFs RamINode

open Bytes (Byte)
open Fallible

variable {s : RamFs} {n : RamINode} {k node offset dir : Nat} {es : Directory} {name : Name}
  {d : Dirent} {f : RamINode → RamINode} {table : Nat → Option Nat}

/-! ### Sound calls -/

/-- The inode under a number of the table. -/
def RamFs.opened (s : RamFs) (ino : Nat) : Option RamINode := (s.inodes ino).bind (s.nodes[·]?)

/-- Files are written from their start on, from memory that can be loaded; only what may be
unlinked is; nothing is put in a directory that was removed or moved to another one, and the
root is not linked. Other calls that the code refuses are sound. -/
def sound (s : RamFs) : Call → Bool
  | .write node offset wdata => s.nodes[node]?.any fun n => n.data.asRegular.all fun regular =>
    regular.length < offset + wdata.length || offset == 0 &&
      (wdata.all Option.isSome || wdata.head? == some none)
  | .read node _ _ _ | .resize node _ _ | .rename node _ _ => node < s.nodes.length
  | .makeFile dir _ _ _ => (s.nodes[dir]?.any fun n => n.data.asDirectory.isNone || s.inodes n.ino
    == some dir) && s.inoCtr + 1 < 2 ^ 64
  | .link dir _ vnode _ => (s.nodes[dir]?.any fun n => n.data.asDirectory.isNone || s.inodes n.ino
    == some dir) && 0 < vnode && vnode < s.nodes.length
  | .unlink dir name mode => s.nodes[dir]?.any fun n => n.data.asDirectory.all fun es =>
    (es.lookup name).all fun d =>
    ((s.change dir fun n => { n with data := .directory (es.erase name) }).opened d.ino).all
    fun m =>
      (m.data.refusal mode).isNone
  | .renameTo .. => false

/-- The inodes and the table are as before after an error. -/
def Conforms (c : Call) (s : RamFs) (r : Except Errno Answer) (s' : RamFs) : Prop :=
  match r with
  | .error _ => s'.nodes = s.nodes ∧ s'.inodes = s.inodes
  | .ok a => Act c s.tree a s'.tree

/-- The call returns, and does what it has to. -/
def Fine (c : Call) (s : RamFs) : Prop := ∃ r s', call c s = some (r, s') ∧ Inv none s' ∧
    Conforms c s r s'

variable {α : Type} {e : Errno} {c : Call} {data : RamFsData} {bytes : List Byte}
  {pending' : Option Nat} {name' : Name} {mode : UnlinkMode}

theorem inode_bind {g : RamINode → Fallible RamFs Errno α} (there : s.nodes[k]? = some n) :
    (inode k >>= g) s = g n s := by
  unfold inode
  simp [there]

@[simp] theorem okOr_some {a : α} : okOr (some a) e = pure a := rfl

@[simp] theorem okOr_none : (okOr none e : Fallible RamFs Errno α) = fail e := rfl

theorem fine_of_error (inv : Inv none s) (run : call c s = some (.error e, s)) : Fine c s :=
  ⟨.error e, s, run, inv, rfl, rfl⟩

theorem asRegular_eq (h : data.asRegular = some bytes) : data = .regular bytes := by
  cases data <;> cases h
  rfl

theorem asDirectory_eq (h : data.asDirectory = some es) : data = .directory es := by
  cases data <;> cases h
  rfl

theorem exists_inode (inside : decide (k < s.nodes.length) = true) : ∃ n, s.nodes[k]? = some n :=
  ⟨_, getElem?_eq_getElem (of_decide_eq_true inside)⟩

variable {wdata : UserSlice}

theorem UserSlice.exists_data (loads : wdata.all Option.isSome = true) :
    ∃ data : List Byte, wdata = data.map some := by
  refine ⟨wdata.map (·.getD 0), ?_⟩
  rw [map_map]
  refine (map_id wdata).symm.trans (map_congr_left ?_)
  intro b mem
  obtain ⟨byte, rfl⟩ := Option.isSome_iff_exists.mp (all_eq_true.mp loads b mem)
  rfl

theorem copyFromUser_all {data : List Byte} : ∀ {dest : List Byte}, dest.length = data.length →
    copyFromUser dest (data.map some) = (data, true) := by
  induction data with
  | nil =>
    intro dest len
    rw [eq_nil_of_length_eq_zero len]
    rfl
  | cons b data ih =>
    intro dest len
    cases dest with
    | nil => cases len
    | cons _ dest =>
      have rest := ih (Nat.succ.inj len)
      simp [copyFromUser, rest]

theorem copyFromUser_fault {dest : List Byte} {src : UserSlice} (some_byte : dest ≠ []) :
    copyFromUser dest (none :: src) = (dest, false) := by
  cases dest with
  | nil => exact absurd rfl some_byte
  | cons d dest => rfl

/-- Other bytes in a file. -/
theorem Inv.regular {bytes' : List Byte} (inv : Inv none s) (there : s.nodes[k]? = some n)
    (data : n.data = .regular bytes) (ino : (f n).ino = n.ino) (links : (f n).links = n.links)
    (data' : (f n).data = .regular bytes') (len : (f n).size = bytes'.length) :
    Inv none (s.change k f) := by
  have nothing {m : RamINode} {bytes : List Byte} (regular : m.data = .regular bytes) :
      m.entries = ∅ := by
    unfold entries
    rw [regular]
    rfl
  apply inv.change there ino
  · rw [data, data']
    rfl
  · rw [links]
    exact id
  · intro i
    rw [links, if_neg]
    exact fun h => h.2.1 h.2.2
  · intro i
    rw [nothing data, nothing data', links]
  · intro name d entry
    rw [nothing data'] at entry
    cases entry
  · exact fun _ => nothing data'
  · intro bytes'' regular
    rw [data'] at regular
    cases regular
    exact len

theorem write_fine (inv : Inv none s)
    (ok : sound s (.write node offset wdata)) : Fine (.write node offset wdata) s := by
  obtain ⟨n, there, ok⟩ := (Option.any_eq_true ..).mp ok
  cases regular : n.data.asRegular with
  | none =>
    apply fine_of_error (e := .einval) inv
    simp [call, write, inode_bind there, regular]
  | some bytes =>
    have data := asRegular_eq regular
    by_cases out : 2 ^ 64 ≤ offset + wdata.length ∨ bytes.length < offset + wdata.length
    · apply fine_of_error (e := .eio) inv
      simp only [call, write, bind_bind, inode_bind there, regular, okOr_some, pure_andThen,
        if_pos out, fail_andThen, fail_run]
    · have within : offset + wdata.length ≤ bytes.length := by omega
      rw [regular, Option.all_some, decide_eq_false (by omega), Bool.false_or, Bool.and_eq_true,
        beq_iff_eq] at ok
      obtain ⟨rfl, loads⟩ := ok
      rw [Nat.zero_add] at within out
      have len : (bytes.take wdata.length).length = wdata.length := by
        rw [length_take]
        omega
      have copies : wdata.readMultiple 0 (bytes.take wdata.length) =
          some (copyFromUser (bytes.take wdata.length) wdata) := by
        unfold UserSlice.readMultiple
        rw [Nat.zero_add, if_pos (Nat.le_of_eq len), drop_zero]
      have run : call (.write node 0 wdata) s =
          (do (if (copyFromUser (bytes.take wdata.length) wdata).2 then pure ()
            else fail .efault); pure .done :
              Fallible RamFs Errno Answer)
            (s.change node fun n => { n with
              data := .regular ((copyFromUser (bytes.take wdata.length) wdata).1 ++ bytes.drop
                  wdata.length) }) := by
        simp only [call, write, bind_bind, inode_bind there, regular, okOr_some, pure_andThen,
          if_neg out, setData,
          drop_zero, take_zero, nil_append, Nat.zero_add, copies, lift_some_bind, modify_bind]
      rw [Bool.or_eq_true] at loads
      rcases loads with loads | fault
      · obtain ⟨written, rfl⟩ := UserSlice.exists_data loads
        rw [copyFromUser_all (len.trans (length_map _))] at run
        refine ⟨.ok .done, _, run, inv.regular there data rfl rfl rfl ?_, ?_⟩
        · rw [inv.sized there regular]
          simp at within ⊢
          omega
        · show Act _ _ _ _
          rw [tree_change there]
          simp only [length_map] at within ⊢
          have file : s.tree node = some (.regular bytes) := by
            rw [tree_of there, data]
            rfl
          have inside : 0 + written.length ≤ bytes.length := by omega
          have act := Act.write file inside
          simpa [content] using act
      · cases wdata with
        | nil => cases fault
        | cons b rest =>
          obtain rfl : b = none := by simpa using fault
          have some_byte : bytes.take (none :: rest).length ≠ [] := by
            intro nothing
            rw [nothing] at len
            cases len
          rw [copyFromUser_fault some_byte, take_append_drop,
            change_self there (by rw [← data])] at run
          exact ⟨.error .efault, s, run, inv, rfl, rfl⟩

theorem write_within {s' : RamFs} {a : Answer}
    (run : call (.write node offset wdata) s = some (.ok a, s')) :
    offset + wdata.length < 2 ^ 64 := by
  by_contra big
  cases there : s.nodes[node]? with
  | none =>
    simp only [call, write, inode, bind_bind, get_bind, there] at run
    cases run
  | some n =>
    cases regular : n.data.asRegular with
    | none => simp [call, write, inode_bind there, regular] at run
    | some bytes =>
      have out : 2 ^ 64 ≤ offset + wdata.length ∨ bytes.length < offset + wdata.length :=
        .inl (Nat.le_of_not_lt big)
      simp only [call, write, bind_bind, inode_bind there, regular, okOr_some, pure_andThen,
        if_pos out, fail_andThen, fail_run] at run
      cases run

theorem read_fine {len : Nat} {writable : Bool} (inv : Inv none s)
    (ok : sound s (.read node offset len writable)) : Fine (.read node offset len writable) s := by
  obtain ⟨n, there⟩ := exists_inode ok
  cases regular : n.data.asRegular with
  | none =>
    apply fine_of_error (e := .einval) inv
    simp [call, read, inode_bind there, regular]
  | some bytes =>
    have data := asRegular_eq regular
    by_cases out : 2 ^ 64 ≤ offset + len ∨ bytes.length < offset + len
    · apply fine_of_error (e := .eio) inv
      simp only [call, read, bind_bind, inode_bind there, regular, okOr_some, pure_andThen,
        if_pos out, fail_andThen, fail_run]
    · cases writable with
      | false =>
        apply fine_of_error (e := .efault) inv
        simp only [call, read, bind_bind, inode_bind there, regular, okOr_some, pure_andThen,
          if_neg out, Bool.false_eq_true, if_false, fail_andThen, fail_run]
      | true =>
        refine ⟨.ok (.bytes ((bytes.drop offset).take len)), s, ?_, inv, ?_⟩
        · simp only [call, read, bind_bind, inode_bind there, regular, okOr_some, pure_andThen,
            if_neg out, if_true, pure_run]
        · exact .read (by rw [tree_of there, data]; rfl) (by omega)

theorem resize_fine {newSize : Nat} {room : Bool} (inv : Inv none s)
    (ok : sound s (.resize node newSize room)) : Fine (.resize node newSize room) s := by
  obtain ⟨n, there⟩ := exists_inode ok
  cases regular : n.data.asRegular with
  | none =>
    apply fine_of_error (e := .einval) inv
    simp [call, resize, inode_bind there, regular]
  | some bytes =>
    have data := asRegular_eq regular
    by_cases full : bytes.length < newSize ∧ room = false
    · apply fine_of_error (e := .enospc) inv
      simp [call, resize, inode_bind there, regular, if_pos full]
    · refine ⟨.ok .done, s.change node fun n => { n with
        data := .regular (bytes.take newSize ++ List.replicate (newSize - bytes.length) 0)
        size := newSize }, ?_, inv.regular there data rfl rfl rfl ?_, ?_⟩
      · simp [call, resize, inode_bind there, regular, if_neg full]
      · simp
        omega
      · show Act _ _ _ _
        rw [tree_change there]
        exact .resize (by rw [tree_of there, data]; rfl)

/-! ### Calls on directories -/

theorem RamFs.has_of (there : s.nodes[k]? = some n) : s.Has ⟨n.ino, n.data.nodeType, name⟩ :=
  ⟨k, n, there, rfl, rfl⟩

variable {pending : Option Nat}

section

variable (inv : Inv pending s) (there : s.nodes[k]? = some n)
include inv there

theorem Inv.directory {es' : Directory} (data : n.data = .directory es)
    (count : ∀ i, naming es' i + owed pending' i = naming es i + owed pending i)
    (known : ∀ {name d}, es'.lookup name = some d → d.name = name ∧ s.Has d)
    (removed : s.inodes n.ino ≠ some k → es' = ∅) :
    Inv pending' (s.change k fun n => { n with data := .directory es' }) := by
  apply inv.change there rfl
  · rw [data]
    rfl
  · exact id
  · intro i
    rw [if_neg]
    exact fun h => h.2.1 h.2.2
  · intro i
    rw [entries_of_directory data, entries_of_directory rfl, count]
  · exact known
  · exact removed
  · nofun

theorem Inv.links {links : Nat} (alive : n.links ≠ 0)
    (count : ∀ i, owed pending' i + (if n.ino = i then n.links else 0) = owed pending
    i + if n.ino = i then links else 0)
    (drop : ∀ i, table i = if n.ino = i ∧ links = 0 then none else s.inodes i)
    (empty : links = 0 → n.entries = ∅) :
    Inv pending' { (s.change k fun n => { n with links }) with inodes := table } := by
  apply inv.change there rfl rfl
  · exact fun dead => absurd dead alive
  · intro i
    rw [drop]
    simp [alive]
  · intro i
    have := count i
    change naming n.entries i + _ + _ = _
    dsimp only
    omega
  · exact fun entry => inv.known there entry
  · intro out
    apply empty
    by_contra left
    apply out
    rw [drop, if_neg fun h => left h.2]
    exact (inv.kept there).mpr (.inl alive)
  · exact fun regular => inv.sized (n := n) there regular

/-- An entry names an inode that is in the table. -/
theorem Inv.opened (entry : n.entries.lookup name = some d) :
    ∃ node m, s.inodes d.ino = some node ∧ s.nodes[node]? = some m ∧ m.ino = d.ino ∧
      m.data.nodeType = d.type := by
  obtain ⟨-, node, m, found, ino, type⟩ := inv.known there entry
  have named := named_pos there entry
  have count := inv.counted found
  refine ⟨node, m, ?_, found, ino, type⟩
  rw [← ino]
  apply (inv.kept found).mpr
  rw [ino] at count
  omega

end

/-- The inode of a directory that is in the table, or of another file. -/
theorem listed_of_sound
    (ok : (s.nodes[dir]?.any fun n => n.data.asDirectory.isNone || s.inodes n.ino == some dir) =
    true) :
    ∃ n, s.nodes[dir]? = some n ∧ ∀ {es}, n.data.asDirectory = some es →
      s.inodes n.ino = some dir := by
  obtain ⟨n, there, ok⟩ := (Option.any_eq_true ..).mp ok
  refine ⟨n, there, ?_⟩
  intro es directory
  rw [directory] at ok
  simpa using ok

/-- What is known of the entries stays known with one more. -/
theorem Inv.known_insert (inv : Inv pending s) (there : s.nodes[k]? = some n)
    (data : n.data = .directory es) {d : Dirent} (has : s.Has d) (called : d.name = name)
    {d' : Dirent} (entry : (es.insert name d).lookup name' = some d') :
    d'.name = name' ∧ s.Has d' := by
  by_cases same : name' = name
  · subst same
    rw [AList.lookup_insert] at entry
    cases entry
    exact ⟨called, has⟩
  · rw [AList.lookup_insert_ne same, ← entries_of_directory data] at entry
    exact inv.known there entry

theorem Inv.insert {i : Nat} (inv : Inv (some i) s) (there : s.nodes[k]? = some n)
    (data : n.data = .directory es)
    (listed : s.inodes n.ino = some k) (free : es.lookup name = none) (has : s.Has d)
    (ino : d.ino = i)
    (called : d.name = name) :
    Inv none (s.change k fun n => { n with data := .directory (es.insert name d) }) := by
  apply inv.directory there data
  · intro j
    rw [naming_insert free, ino]
    simp [owed]
  · exact inv.known_insert there data has called
  · exact fun out => absurd listed out

theorem lookup_of_erase (h : (es.erase name).lookup name' = some d) : es.lookup name' = some d := by
  by_cases gone : name' = name
  · rw [gone, AList.lookup_erase] at h
    cases h
  · rw [← AList.lookup_erase_ne gone, h]

theorem rename_fine {oldName newName : Name} (inv : Inv none s)
    (ok : sound s (.rename dir oldName newName)) : Fine (.rename dir oldName newName) s := by
  obtain ⟨n, there⟩ := exists_inode ok
  cases directory : n.data.asDirectory with
  | none =>
    apply fine_of_error (e := .einval) inv
    simp [call, rename, inode_bind there, directory]
  | some es =>
    have data := asDirectory_eq directory
    have entries := entries_of_directory data
    cases old : es.lookup oldName with
    | none =>
      apply fine_of_error (e := .enoent) inv
      by_cases same : oldName = newName <;> simp [call, rename, inode_bind there,
        directory, old, same]
    | some d =>
      have entry : n.entries.lookup oldName = some d := by rw [entries, old]
      obtain ⟨node, m, found, opened, ino, type⟩ := inv.opened there entry
      have map : s.tree dir = some (.directory (names s.inodes es)) := by
        rw [tree_of there, data]
        rfl
      have typed : (s.tree node).map Content.type = some d.type := by
        rw [tree_of opened, Option.map_some, type_content, type]
      by_cases same : oldName = newName
      · subst same
        refine ⟨.ok (.dirent d), s, ?_, inv, ?_⟩
        · simp [call, rename, inode_bind there, directory, old]
        · have act := Act.rename map ((names_of s.inodes old).trans found) (.inl rfl)
            (inv.known there entry).1 typed
          rw [update_idem, ← found, ← names_of s.inodes old, update_eq_self, ← map,
            update_eq_self] at act
          exact act
      · cases taken : es.lookup newName with
        | some d' =>
          apply fine_of_error (e := .eexist) inv
          simp [call, rename, inode_bind there, directory, old, same, taken]
        | none =>
          have cleared : (es.insert newName { d with name := newName }).lookup oldName =
              some d := by
            rw [AList.lookup_insert_ne same, old]
          refine ⟨.ok (.dirent { d with name := newName }), s.change dir fun n => { n with
            data := .directory ((es.insert newName { d with name := newName }).erase oldName) },
              ?_, ?_, ?_⟩
          · simp [call, rename, inode_bind there, directory, old, same, taken, setData]
          · apply inv.directory there data
            · intro i
              have first := naming_insert (d := { d with name := newName }) (i := i) taken
              have second := naming_erase (i := i) cleared
              dsimp only at first
              omega
            · intro name d' found'
              have has : s.Has { d with name := newName } := ⟨node, m, opened, ino, type⟩
              exact inv.known_insert there data has rfl (lookup_of_erase found')
            · intro out
              rw [inv.removed there out] at entry
              cases entry
          · show Act _ _ _ _
            have act := Act.rename (d := { d with name := newName }) map
              ((names_of s.inodes old).trans found) (.inr (names_none s.inodes taken)) rfl typed
            rw [tree_change there, content_directory, names_erase, names_insert, found,
              update_comm (Ne.symm same)]
            exact act

theorem RamFs.tree_add (inv : Inv none s) (spec : MakeFileSpec) :
    (s.add spec).tree = update s.tree s.nodes.length (some (.ofSpec spec)) := by
  funext k
  by_cases last : k = s.nodes.length
  · subst last
    rw [update_self, tree_of (s.getElem?_add_new spec), content_spec]
  · rw [update_of_ne last, ← tree_table (s := s) (s.add spec).inodes]
    · unfold tree add
      rw [getElem?_append]
      split
      · rfl
      · rw [getElem?_eq_none (by omega : s.nodes.length ≤ k), getElem?_eq_none (by simp; omega)]
    · intro k n name d there entry
      obtain ⟨-, k', n', there', ino, -⟩ := inv.known there entry
      rw [← ino]
      exact inv.add_other there' spec

theorem makeFile_fine {spec : MakeFileSpec} {fault : Option Errno} (inv : Inv none s)
    (ok : sound s (.makeFile dir name spec fault)) : Fine (.makeFile dir name spec fault) s := by
  obtain ⟨ok, few⟩ := Bool.and_eq_true_iff.mp ok
  obtain ⟨n, there, listed⟩ := listed_of_sound ok
  have next := Nat.mod_eq_of_lt (of_decide_eq_true few)
  cases directory : n.data.asDirectory with
  | none =>
    apply fine_of_error (e := .einval) inv
    simp [call, makeFile, inode_bind there, directory]
  | some es =>
    have data := asDirectory_eq directory
    cases taken : es.lookup name with
    | some d =>
      apply fine_of_error (e := .eexist) inv
      simp [call, makeFile, inode_bind there, directory, taken]
    | none =>
      by_cases device : s.allowDevfiles = false ∧ spec.isDevice
      · apply fine_of_error (e := .einval) inv
        simp [call, makeFile, inode_bind there, directory, taken, device]
      · cases fault with
        | some e =>
          refine ⟨.error e, { s with inoCtr := s.inoCtr + 1 }, ?_, inv.skip, rfl, rfl⟩
          simp only [call, makeFile, bind_bind, inode_bind there, directory, okOr_some,
            pure_andThen, get_bind, taken,
            Option.isSome_none, Bool.false_eq_true, if_false, if_neg device, modify_bind, next,
              fail_andThen, fail_run]
        | none =>
          have inside := Nat.ne_of_lt (List.getElem?_eq_some_iff.mp there).1
          have there' : (s.add spec).nodes[dir]? = some n := getElem?_add_old there
          have entry : (s.add spec).inodes s.inoCtr = some s.nodes.length := update_self ..
          refine ⟨.ok (.made ⟨s.inoCtr, spec.data.nodeType, name⟩ s.nodes.length),
              (s.add spec).change dir fun n =>
            { n with data := .directory (es.insert name ⟨s.inoCtr, spec.data.nodeType, name⟩) },
              ?_, ?_, ?_⟩
          · simp only [call, makeFile, bind_bind, inode_bind there, directory, okOr_some,
              pure_andThen, get_bind, taken,
              Option.isSome_none, Bool.false_eq_true, if_false, if_neg device, modify_bind, next,
                setData, pure_run]
            rfl
          · apply (inv.add spec).insert there' data ?_ taken
              (has_of (s.getElem?_add_new spec)) rfl rfl
            rw [inv.add_other there]
            exact listed directory
          · show Act _ _ _ _
            have map := tree_of there'
            rw [tree_add inv, update_of_ne inside, data, content_directory] at map
            rw [tree_change there', tree_add inv, content_directory, names_insert, entry,
              update_comm (Ne.symm inside)]
            apply Act.makeFile map (names_none _ taken) _ rfl
            · rw [← content_spec s.inodes, type_content]
            · unfold tree
              rw [getElem?_eq_none (Nat.le_refl _)]
              rfl

/-- Another count of links leaves what an inode is. -/
theorem RamFs.getElem?_links (node links : Nat) (there : s.nodes[k]? = some n) : ∃ n',
    (s.change node fun n => { n with links }).nodes[k]? = some n' ∧ n'.data = n.data ∧
    n'.ino = n.ino := by
  rw [getElem?_change, there]
  refine ⟨_, rfl, ?_⟩
  split
  · exact ⟨rfl, rfl⟩
  · exact ⟨rfl, rfl⟩

theorem link_fine {vnode : Nat} {interrupted : Bool} (inv : Inv none s)
    (ok : sound s (.link dir name vnode interrupted)) :
    Fine (.link dir name vnode interrupted) s := by
  obtain ⟨ok, inside⟩ := Bool.and_eq_true_iff.mp ok
  obtain ⟨ok, proper⟩ := Bool.and_eq_true_iff.mp ok
  obtain ⟨n, there, listed⟩ := listed_of_sound ok
  obtain ⟨m, target⟩ := exists_inode inside
  cases directory : n.data.asDirectory with
  | none =>
    apply fine_of_error (e := .einval) inv
    simp [call, link, inode_bind there, directory]
  | some es =>
    have data := asDirectory_eq directory
    cases taken : es.lookup name with
    | some d =>
      apply fine_of_error (e := .eexist) inv
      simp [call, link, inode_bind there, directory, taken]
    | none =>
      cases interrupted with
      | true =>
        apply fine_of_error (e := .eintr) inv
        simp [call, link, inode_bind there, directory, taken]
      | false =>
        cases found : s.inodes m.ino with
        | none =>
          apply fine_of_error (e := .eio) inv
          simp [call, link, inode_bind there, directory, taken, inode_bind target, found]
        | some node =>
          -- The table has an inode under its own number only.
          obtain rfl : node = vnode := by
            obtain ⟨m', there', ino⟩ := inv.listed found
            exact inv.distinct there' target ino
          have alive : m.links ≠ 0 := by
            rcases (inv.kept target).mp found with alive | root
            · exact alive
            · exact absurd root (Nat.ne_of_gt (of_decide_eq_true proper))
          by_cases many : 65535 ≤ m.links
          · apply fine_of_error (e := .emlink) inv
            simp [call, link, inode_bind there, directory, taken, inode_bind target, found,
              alive, many]
          · have counted :
                Inv (some m.ino) (s.change node fun n => { n with links := m.links + 1 }) := by
              apply inv.links target alive
              · intro i
                unfold owed
                by_cases same : m.ino = i <;> simp [same]
                omega
              · simp
              · nofun
            obtain ⟨n', there', data', ino'⟩ := getElem?_links node (m.links + 1) there
            have target' : (s.change node fun n => { n with links := m.links + 1 }).nodes[node]? =
                some { m with links := m.links + 1 } := by
              rw [getElem?_change, target]
              simp
            refine ⟨.ok .done, (s.change node fun n => { n with links := m.links + 1 }).change
                dir fun n =>
              { n with data := .directory (es.insert name ⟨m.ino, m.data.nodeType, name⟩) },
                ?_, ?_, ?_⟩
            · simp [call, link, inode_bind there, directory, taken, inode_bind target, found,
                alive, many, setLinks, setData]
            · apply counted.insert there' (data'.trans data) ?_ taken (has_of target') rfl rfl
              rw [ino']
              exact listed directory
            · show Act _ _ _ _
              rw [tree_change there', tree_change_same target rfl, content_directory, names_insert]
              change Act _ _ _ (update _ _ (some (.directory (update _ _ (s.inodes m.ino)))))
              rw [found]
              apply Act.link _ (names_none _ taken)
              rw [tree_of there, data]
              rfl

theorem RamINode.entries_of_refusal (allowed : n.data.refusal mode = none) : n.entries = ∅ := by
  unfold entries
  cases data : n.data with
  | directory es =>
    rw [data] at allowed
    apply AList.ext
    apply eq_nil_of_length_eq_zero
    change es.entries.length = 0
    by_contra some_left
    by_cases file : mode = .fileOnly <;> simp [RamFsData.refusal, file, some_left] at allowed
  | _ => rfl

/-- The end of `unlink`: one link less, and the inode leaves the table with the last one. -/
def RamFs.unlinked (s : RamFs) (node : Nat) (m : RamINode) : RamFs :=
  { (s.change node fun n => { n with links := m.links - 1 }) with
    inodes := if m.links = 1 then update s.inodes m.ino none else s.inodes }

theorem Inv.alive {pending : Nat} (inv : Inv (some pending) s) (there : s.nodes[k]? = some n)
    (ino : n.ino = pending) : n.links ≠ 0 := by
  have count := inv.counted there
  unfold owed at count
  rw [ino, if_pos rfl] at count
  omega

section

variable (inv : Inv (some n.ino) s) (there : s.nodes[k]? = some n) (empty : n.entries = ∅)
include inv there empty

theorem Inv.unlinked : Inv none (s.unlinked k n) := by
  have alive := inv.alive there rfl
  apply inv.links there alive
  · intro i
    unfold owed
    by_cases same : n.ino = i <;> simp [same]
    omega
  · intro i
    by_cases last : n.links = 1
    · by_cases same : n.ino = i
      · subst same
        simp [last]
      · simp [last, same, Ne.symm same]
    · rw [if_neg last, if_neg]
      omega
  · exact fun _ => empty

/-- Nothing names the inode that leaves the table. -/
theorem Inv.tree_unlinked : (s.unlinked k n).tree = s.tree := by
  have after := inv.unlinked there empty
  have changed : (s.unlinked k n).nodes[k]? = some { n with links := n.links - 1 } := by
    change (s.change k _).nodes[k]? = _
    rw [getElem?_change, there]
    simp
  refine (tree_table _ ?_).trans (tree_change_same there rfl)
  intro k' n' name d there' entry
  have named := named_pos (s := s.unlinked k n) there' entry
  split
  · rename_i last
    apply update_of_ne
    intro same
    have count := after.counted changed
    rw [same] at named
    simp [owed, last] at count
    omega
  · rfl

end

theorem unlink_fine (inv : Inv none s) (ok : sound s (.unlink dir name mode)) :
    Fine (.unlink dir name mode) s := by
  obtain ⟨n, there, ok⟩ := (Option.any_eq_true ..).mp ok
  cases directory : n.data.asDirectory with
  | none =>
    apply fine_of_error (e := .einval) inv
    simp [call, unlink, inode_bind there, directory]
  | some es =>
    have data := asDirectory_eq directory
    have entries := entries_of_directory data
    cases entry : es.lookup name with
    | none =>
      apply fine_of_error (e := .enoent) inv
      simp [call, unlink, inode_bind there, directory, entry]
    | some d =>
      rw [directory, Option.all_some, entry, Option.all_some] at ok
      have map : s.tree dir = some (.directory (names s.inodes es)) := by
        rw [tree_of there, data]
        rfl
      have erased : Inv (some d.ino)
          (s.change dir fun n => { n with data := .directory (es.erase name) }) := by
        apply inv.directory there data
        · intro i
          have count := naming_erase (i := i) entry
          simpa [owed] using count
        · intro name' d' found
          exact inv.known there (by rw [entries, lookup_of_erase found])
        · intro out
          rw [← entries, inv.removed there out] at entry
          cases entry
      have tree : (s.change dir fun n => { n with data := .directory (es.erase name) }).tree =
          update s.tree dir (some (.directory (update (names s.inodes es) name none))) := by
        rw [tree_change there, content_directory, names_erase]
      obtain ⟨node, m₀, found, -⟩ := inv.opened there (entries ▸ entry)
      have act : Act (.unlink dir name mode) s.tree .done _ :=
        .unlink map ((names_of _ entry).trans found)
      rw [← tree] at act
      have found' : (s.change dir fun n => { n with data := .directory (es.erase name) }).inodes
          d.ino = some node :=
        found
      obtain ⟨m, target, ino⟩ := erased.listed found'
      have allowed : m.data.refusal mode = none := by
        unfold opened at ok
        rw [found', Option.bind_some, target, Option.all_some] at ok
        exact Option.isNone_iff_eq_none.mp ok
      have empty := entries_of_refusal allowed
      have alive := erased.alive target ino
      rw [← ino] at erased
      rw [← erased.tree_unlinked target empty] at act
      refine ⟨.ok .done, _, ?_, erased.unlinked target empty, act⟩
      by_cases last : m.links = 1
      · simp [call, unlink, inode_bind there, directory, entry, setData, found', inode_bind target,
          allowed, last, unlinked, ino]
        rfl
      · simp [call, unlink, inode_bind there, directory, entry, setData, found', inode_bind target,
          allowed, alive, last, unlinked]
        rfl

/-! ### Runs -/

theorem call_fine (inv : Inv none s) (ok : sound s c) : Fine c s := by
  cases c with
  | write node offset wdata => exact write_fine inv ok
  | read node offset len writable => exact read_fine inv ok
  | resize node newSize room => exact resize_fine inv ok
  | makeFile dir name spec fault => exact makeFile_fine inv ok
  | link dir name vnode interrupted => exact link_fine inv ok
  | unlink dir name mode => exact unlink_fine inv ok
  | rename dir oldName newName => exact rename_fine inv ok
  | renameTo srcDir srcName destDir destName => cases ok

theorem inv_reached {dev : Bool} (h : Runs call (fun s c => sound s c) (RamFs.new dev) s) :
    Inv none s := by
  apply h.invariant (inv_new dev)
  intro c s ok inv r s' run
  obtain ⟨r', s'', run', after, -⟩ := call_fine inv ok
  rw [run] at run'
  cases run'
  cases r with
  | error e | ok a => exact after

/-- An inode has as many links as there are entries that name it, and is in the table as long as
there are
any. The root is always there, and a directory that left the table has no entries. -/
structure Counted (s : RamFs) : Prop where
  links : ∀ {k : Nat} {n : RamINode}, s.nodes[k]? = some n → n.links = s.named n.ino
  listed : ∀ {k : Nat} {n : RamINode}, s.nodes[k]? = some n →
    (s.inodes n.ino = some k ↔ n.links ≠ 0 ∨ k = 0)
  removed : ∀ {k : Nat} {n : RamINode}, s.nodes[k]? = some n → s.inodes n.ino ≠ some k →
    n.entries = ∅

/-- In every run of sound calls the counts are right, and each sound call returns and acts on the
tree or, if it
fails, leaves it; what was written is read back. -/
theorem acts_on_tree {dev : Bool} (h : Runs call (fun s c => sound s c) (RamFs.new dev) s) :
    Counted s ∧ (∀ c, sound s c → ∃ r s', call c s = some (r, s') ∧ Conforms c s r s') ∧
      ∀ {node offset : Nat} {data : List Byte} {s' : RamFs}, sound s (.write node offset
        (data.map some)) → call (.write node offset (data.map some)) s = some (.ok .done, s') →
        call (.read node offset data.length true) s' = some (.ok (.bytes data), s') := by
  have inv := inv_reached h
  refine ⟨⟨inv.counted, inv.kept, inv.removed⟩, ?_, ?_⟩
  · intro c ok
    obtain ⟨r, s', run, -, conforms⟩ := call_fine inv ok
    exact ⟨r, s', run, conforms⟩
  · intro node offset data s' ok run
    obtain ⟨r, s'', run', -, conforms⟩ := call_fine inv ok
    rw [run] at run'
    cases run'
    have written := conforms
    have small := write_within run
    rw [length_map] at small
    obtain ⟨bytes, file, within⟩ := written.written
    obtain ⟨n, there, regular⟩ := exists_regular file
    rw [length_map] at within
    have out : ¬ (2 ^ 64 ≤ offset + data.length ∨ bytes.length < offset + data.length) := by
      omega
    have same := written.read_back (.read file within)
    simp only [call, read, bind_bind, inode_bind there, regular, okOr_some, pure_andThen,
      if_neg out, if_true, pure_run]
    rw [same]

/-- Make `a`, give it two bytes and write them; call it `b` too, and remove `a`. -/
def fileCalls : List Call :=
  [.makeFile 0 [97#8] .regular none, .resize 1 2 true, .write 1 0 [some 5#8, some 6#8],
    .link 0 [98#8] 1 false, .unlink 0 [97#8] .fileOnly]

theorem acts_on_tree_file : ∃ s, Runs call (fun s c => sound s c) (RamFs.new false) s ∧
    s.nodes[1]? = some ⟨.regular [5#8, 6#8], 2, 1, 2⟩ ∧ Counted s := by
  obtain ⟨s, reached, file⟩ : ∃ s, Runs call (fun s c => sound s c) (new false) s ∧
    s.nodes[1]? = some ⟨.regular [5#8, 6#8], 2, 1, 2⟩ :=
      exists_of_runAll fileCalls (by decide +kernel)
  exact ⟨s, reached, file, (acts_on_tree reached).1⟩

/-- A write of one byte at offset 1 panics. To remove a directory with a file in it is an error, and
the
directory has no name any more. -/
theorem not_acts_on_tree : (∃ s, Runs call (fun s c => sound s c) (RamFs.new false) s ∧
    (∃ n, s.nodes[1]? = some n ∧
      n.data = .regular [0, 0]) ∧ call (.write 1 1 [some 5#8]) s = none) ∧
    ∃ s s' e, Runs call (fun s c => sound s c) (RamFs.new false) s ∧
      call (.unlink 0 [97#8] .dirOnly) s = some (.error e, s') ∧ s'.nodes ≠ s.nodes ∧
        ¬ Counted s' := by
  constructor
  · obtain ⟨s, reached, file, panics⟩ : ∃ s, Runs call (fun s c => sound s c)
      (new false) s ∧
        s.nodes[1]?.any (fun n => n.data = .regular [0, 0]) = true ∧
            (call (.write 1 1 [some 5#8]) s).isNone = true :=
      exists_of_runAll (fileCalls.take 2) (by decide +kernel)
    obtain ⟨n, there, data⟩ := (Option.any_eq_true ..).mp file
    exact ⟨s, reached, ⟨n, there, of_decide_eq_true data⟩,
      Option.isNone_iff_eq_none.mp panics⟩
  · obtain ⟨s, reached, facts⟩ : ∃ s, Runs call (fun s c => sound s c) (new false) s ∧
        (call (.unlink 0 [97#8] .dirOnly) s).any (fun (r, s') => r = .error .enotempty ∧
          s'.named 2 ≠ s.named 2 ∧
              s'.nodes[1]?.any (fun n => n.links ≠ s'.named n.ino) = true) = true :=
      exists_of_runAll [.makeFile 0 [97#8] .directory none, .makeFile 1 [98#8] .fifo none]
        (by decide +kernel)
    obtain ⟨⟨r, s'⟩, fails, facts⟩ := (Option.any_eq_true ..).mp facts
    obtain ⟨rfl, changed, miscounted⟩ := of_decide_eq_true facts
    obtain ⟨n, there, wrong⟩ := (Option.any_eq_true ..).mp miscounted
    refine ⟨s, s', .enotempty, reached, fails, ?_, ?_⟩
    · intro same
      apply changed
      unfold named
      rw [same]
    · exact fun counted => of_decide_eq_true wrong (counted.links there)

end BadgerOS.Ramfs
