import BadgerOS.Lib.Interleaving
import BadgerOS.Ramfs.Inodes

/-!
# Link counts of RamFs

The entries that name an inode, in all directories, and the link count that the inode
keeps. An inode is in the table as long as an entry names it.
-/

namespace BadgerOS.Ramfs

open Function List RamFs

open Bytes (Byte)

variable {s s' : RamFs} {n m : RamINode} {k i node dir : Nat} {name : Name} {d : Dirent}
  {es : Directory} {f : RamINode → RamINode}

/-! ### Counting entries -/

/-- The entries of a directory that name an inode. -/
def naming (es : Directory) (i : Nat) : Nat := es.entries.countP fun e => e.2.ino = i

@[simp] theorem naming_empty : naming ∅ i = 0 := rfl

theorem naming_insert (free : es.lookup name = none) :
    naming (es.insert name d) i = naming es i + if d.ino = i then 1 else 0 := by
  unfold naming
  rw [AList.entries_insert_of_notMem (AList.lookup_eq_none.mp free), countP_cons]
  simp

theorem naming_erase (there : es.lookup name = some d) :
    naming (es.erase name) i + (if d.ino = i then 1 else 0) = naming es i := by
  have mem := AList.lookup_isSome.mp (by rw [there]; rfl)
  obtain ⟨d', before, after, -, whole, rest⟩ := exists_of_kerase mem
  have same : d' = d := by
    apply es.nodupKeys.eq_of_mk_mem (a := name)
    · rw [whole]
      simp
    · exact of_mem_dlookup there
  subst same
  change (kerase name es.entries).countP _ + _ = es.entries.countP _
  rw [rest, whole]
  simp only [countP_append, countP_cons, decide_eq_true_eq]
  omega

theorem naming_pos (there : es.lookup name = some d) : 0 < naming es d.ino := by
  have count := naming_erase (i := d.ino) there
  rw [if_pos rfl] at count
  omega

theorem exists_of_naming (named : naming es i ≠ 0) : ∃ name d, es.lookup name = some d ∧
    d.ino = i := by
  obtain ⟨e, mem, names⟩ := countP_pos_iff.mp (Nat.pos_of_ne_zero named)
  exact ⟨e.1, e.2, mem_dlookup es.nodupKeys mem, of_decide_eq_true names⟩

/-- The entries of an inode; none, if it is not a directory. -/
def RamINode.entries (n : RamINode) : Directory := n.data.asDirectory.getD ∅

/-- The directory entries that name an inode. -/
def RamFs.named (s : RamFs) (i : Nat) : Nat := (s.nodes.map fun n => naming n.entries i).sum

theorem sum_modify {α : Type} {l : List α} {x : α} {g : α → α} {k : Nat} (h : α → Nat)
    (there : l[k]? = some x) : ((l.modify k g).map h).sum + h x = (l.map h).sum + h (g x) := by
  rw [modify_eq_set_getElem?, there]
  exact Interleaving.sum_set h there

theorem RamFs.named_change (there : s.nodes[k]? = some n) :
    (s.change k f).named i + naming n.entries i = s.named i + naming (f n).entries i :=
  sum_modify (fun n : RamINode => naming n.entries i) there

theorem RamFs.getElem?_change : (s.change k f).nodes[i]? = s.nodes[i]?.map fun n =>
    if k = i then f n else n :=
  getElem?_modify ..

theorem RamFs.change_cases {j : Nat} {m : RamINode} (there : s.nodes[k]? = some n)
    (now : (s.change k f).nodes[j]? = some m) :
    (j = k ∧ m = f n) ∨ (j ≠ k ∧ s.nodes[j]? = some m) := by
  rw [getElem?_change] at now
  obtain ⟨m', old, rfl⟩ := Option.map_eq_some_iff.mp now
  by_cases same : k = j
  · subst same
    rw [there] at old
    cases old
    exact .inl ⟨rfl, if_pos rfl⟩
  · exact .inr ⟨Ne.symm same, by rw [if_neg same, old]⟩

/-- An inode that keeps its number has had it before. -/
theorem RamFs.ino_of_change {j : Nat} {m : RamINode} (there : s.nodes[k]? = some n)
    (ino : (f n).ino = n.ino) (now : (s.change k f).nodes[j]? = some m) :
    ∃ m', s.nodes[j]? = some m' ∧ m.ino = m'.ino := by
  obtain ⟨rfl, rfl⟩ | ⟨-, old⟩ := change_cases there now
  · exact ⟨n, there, ino⟩
  · exact ⟨m, old, rfl⟩

theorem RamFs.change_of_nodes {j : Nat} {m : RamINode} (there : s.nodes[k]? = some n)
    (ino : (f n).ino = n.ino) (type : (f n).data.nodeType = n.data.nodeType)
    (dead : n.links = 0 → (f n).links = 0) (old : s.nodes[j]? = some m) :
    ∃ m', (s.change k f).nodes[j]? = some m' ∧ m'.ino = m.ino ∧
      m'.data.nodeType = m.data.nodeType ∧ (m.links = 0 → m'.links = 0) := by
  refine ⟨if k = j then f m else m, by rw [getElem?_change, old]; rfl, ?_⟩
  split
  · rename_i same
    subst same
    rw [there] at old
    cases old
    exact ⟨ino, type, dead⟩
  · exact ⟨rfl, rfl, id⟩

theorem RamFs.named_pos (there : s.nodes[k]? = some n) (entry : n.entries.lookup name = some d) :
    0 < s.named d.ino := by
  have within := Interleaving.le_sum (fun n : RamINode => naming n.entries d.ino) there
  have := naming_pos entry
  unfold named
  omega

/-! ### The invariant -/

/-- An inode has the number and the type that an entry has. -/
def RamFs.Has (s : RamFs) (d : Dirent) : Prop :=
  ∃ (k : Nat) (n : RamINode), s.nodes[k]? = some n ∧ n.ino = d.ino ∧ n.data.nodeType = d.type

def owed (pending : Option Nat) (i : Nat) : Nat := if pending = some i then 1 else 0

/-- Within a call, the count of the inode `pending` has an entry in it that is not there. -/
structure Inv (pending : Option Nat) (s : RamFs) : Prop where
  bound : ∀ {k : Nat} {n : RamINode}, s.nodes[k]? = some n → n.ino < s.inoCtr
  distinct : ∀ {k k' : Nat} {n n' : RamINode}, s.nodes[k]? = some n → s.nodes[k']? = some n' →
    n.ino = n'.ino → k = k'
  listed : ∀ {i k : Nat}, s.inodes i = some k → ∃ n, s.nodes[k]? = some n ∧ n.ino = i
  kept : ∀ {k : Nat} {n : RamINode}, s.nodes[k]? = some n →
    (s.inodes n.ino = some k ↔ n.links ≠ 0 ∨ k = 0)
  counted : ∀ {k : Nat} {n : RamINode}, s.nodes[k]? = some n →
    n.links = s.named n.ino + owed pending n.ino
  known : ∀ {k : Nat} {n : RamINode} {name : Name} {d : Dirent}, s.nodes[k]? = some n →
    n.entries.lookup name = some d → d.name = name ∧ s.Has d
  removed : ∀ {k : Nat} {n : RamINode}, s.nodes[k]? = some n → s.inodes n.ino ≠ some k →
    n.entries = ∅
  sized : ∀ {k : Nat} {n : RamINode} {bytes : List Byte}, s.nodes[k]? = some n →
    n.data.asRegular = some bytes → n.size = bytes.length
  root : ∃ n, s.nodes[0]? = some n ∧ n.links = 0

variable {pending pending' : Option Nat}

theorem RamINode.entries_of_directory (data : n.data = .directory es) : n.entries = es := by
  unfold RamINode.entries
  rw [data]
  rfl

theorem MakeFileSpec.entries_data (spec : MakeFileSpec) (size links ino : Nat) :
    RamINode.entries ⟨spec.data, size, links, ino⟩ = ∅ := by
  cases spec <;> rfl

theorem inv_new (dev : Bool) : Inv none (new dev) := by
  have only {k : Nat} {n : RamINode} (there : (new dev).nodes[k]? = some n) :
      k = 0 ∧ n = ⟨.directory ∅, 0, 0, 1⟩ := by
    cases k with
    | zero => exact ⟨rfl, (Option.some.inj there).symm⟩
    | succ k => cases there
  constructor
  · intro k n there
    obtain ⟨-, rfl⟩ := only there
    exact Nat.one_lt_two
  · intro k k' n n' there there' _
    rw [(only there).1, (only there').1]
  · intro i k there
    by_cases one : i = 1
    · subst one
      cases there
      exact ⟨_, rfl, rfl⟩
    · simp [new, one] at there
  · intro k n there
    obtain ⟨rfl, rfl⟩ := only there
    exact ⟨fun _ => .inr rfl, fun _ => rfl⟩
  · intro k n there
    obtain ⟨rfl, rfl⟩ := only there
    rfl
  · intro k n name d there entry
    obtain ⟨rfl, rfl⟩ := only there
    cases entry
  · intro k n there _
    obtain ⟨rfl, rfl⟩ := only there
    rfl
  · intro k n bytes there data
    obtain ⟨rfl, rfl⟩ := only there
    cases data
  · exact ⟨_, rfl, rfl⟩

section

variable (inv : Inv pending s)
include inv

theorem Inv.root_links (there : s.nodes[0]? = some n) : n.links = 0 := by
  obtain ⟨root, found, links⟩ := inv.root
  rw [found] at there
  cases there
  exact links

/-- A number that was taken for nothing. -/
theorem Inv.skip : Inv pending { s with inoCtr := s.inoCtr + 1 } :=
  { inv with
    bound := fun there => Nat.lt_succ_of_lt (inv.bound there)
    known := fun there entry => inv.known there entry }

theorem Inv.ino_ne {j : Nat} {m : RamINode} (there : s.nodes[k]? = some n) (ne : j ≠ k)
    (old : s.nodes[j]? = some m) : n.ino ≠ m.ino :=
  fun same => ne (inv.distinct old there same.symm)

/-- An inode that is not the root is in the table if and only if its new count is not zero. -/
theorem Inv.kept_change (there : s.nodes[k]? = some n) (dead : n.links = 0 → (f n).links = 0) :
    (if n.ino = n.ino ∧ n.links ≠ 0 ∧ (f n).links = 0 then none else s.inodes n.ino) = some k ↔
      (f n).links ≠ 0 ∨ k = 0 := by
  have before := inv.kept there
  by_cases zero : n.links = 0
  · have after := dead zero
    simp [zero, after] at before ⊢
    exact before
  · by_cases last : (f n).links = 0
    · have proper : k ≠ 0 := by
        rintro rfl
        exact zero (inv.root_links there)
      simp [zero, last, proper]
    · simp [zero, last] at before ⊢
      exact before

/-- One inode changes. It leaves the table when its count becomes zero. -/
theorem Inv.change {table : Nat → Option Nat} (there : s.nodes[k]? = some n)
    (ino : (f n).ino = n.ino) (type : (f n).data.nodeType = n.data.nodeType)
    (dead : n.links = 0 → (f n).links = 0)
    (drop : ∀ i, table i =
      if n.ino = i ∧ n.links ≠ 0 ∧ (f n).links = 0 then none else s.inodes i)
    (count : ∀ i, naming (f n).entries i + owed pending' i + (if n.ino = i then n.links else 0) =
      naming n.entries i + owed pending i + if n.ino = i then (f n).links else 0)
    (known : ∀ {name d}, (f n).entries.lookup name = some d → d.name = name ∧ s.Has d)
    (removed : table n.ino ≠ some k → (f n).entries = ∅)
    (sized : ∀ {bytes}, (f n).data.asRegular = some bytes → (f n).size = bytes.length) :
    Inv pending' { s.change k f with inodes := table } := by
  have named (i : Nat) := named_change (f := f) (i := i) there
  have back {j : Nat} {m : RamINode} (now : (s.change k f).nodes[j]? = some m) :=
    change_cases there now
  have newer {j : Nat} {m : RamINode} (old : s.nodes[j]? = some m) :=
    change_of_nodes there ino type dead old
  -- Another inode has another number, so that the table has for it what it had.
  have stays {j : Nat} {m : RamINode} (ne : j ≠ k) (old : s.nodes[j]? = some m) :
      table m.ino = s.inodes m.ino := by
    rw [drop, if_neg fun h => inv.ino_ne there ne old h.1]
  constructor
  · intro j m now
    obtain ⟨m', old, same⟩ := ino_of_change there ino now
    rw [same]
    exact inv.bound old
  · intro j j' m m' there₁ there₂ same
    obtain ⟨m₁, old₁, same₁⟩ := ino_of_change there ino there₁
    obtain ⟨m₂, old₂, same₂⟩ := ino_of_change there ino there₂
    exact inv.distinct old₁ old₂ (same₁.symm.trans (same.trans same₂))
  · intro i j entry
    change table i = some j at entry
    rw [drop] at entry
    split at entry
    · cases entry
    · obtain ⟨m, old, rfl⟩ := inv.listed entry
      obtain ⟨m', new, same, -⟩ := newer old
      exact ⟨m', new, same⟩
  · intro j m now
    change table m.ino = some j ↔ _
    obtain ⟨rfl, rfl⟩ | ⟨ne, old⟩ := back now
    · rw [ino, drop]
      exact inv.kept_change there dead
    · rw [stays ne old]
      exact inv.kept old
  · intro j m now
    change m.links = (s.change k f).named m.ino + _
    have total := named m.ino
    have change := count m.ino
    obtain ⟨rfl, rfl⟩ | ⟨ne, old⟩ := back now
    · have before := inv.counted there
      rw [ino] at total change ⊢
      rw [if_pos rfl, if_pos rfl] at change
      omega
    · have before := inv.counted old
      have other := inv.ino_ne there ne old
      rw [if_neg other, if_neg other] at change
      omega
  · intro j m name d now entry
    have facts : d.name = name ∧ s.Has d := by
      obtain ⟨-, rfl⟩ | ⟨-, old⟩ := back now
      · exact known entry
      · exact inv.known old entry
    obtain ⟨named, j', m', old, ino', type'⟩ := facts
    obtain ⟨m'', new, same, type'', -⟩ := newer old
    exact ⟨named, j', m'', new, same.trans ino', type''.trans type'⟩
  · intro j m now out
    obtain ⟨rfl, rfl⟩ | ⟨ne, old⟩ := back now
    · rw [ino] at out
      exact removed out
    · apply inv.removed old
      rw [← stays ne old]
      exact out
  · intro j m bytes now data
    obtain ⟨-, rfl⟩ | ⟨-, old⟩ := back now
    · exact sized data
    · exact inv.sized old data
  · obtain ⟨m, old, links⟩ := inv.root
    obtain ⟨m', new, -, -, dead⟩ := newer old
    exact ⟨m', new, dead links⟩

theorem Inv.unnamed : s.named s.inoCtr = 0 := by
  apply Interleaving.sum_eq_zero
  intro n mem
  by_contra named
  obtain ⟨k, there⟩ := mem_iff_getElem?.mp mem
  obtain ⟨name, d, entry, ino⟩ := exists_of_naming named
  obtain ⟨k', n', there', ino', -⟩ := (inv.known there entry).2
  have := inv.bound there'
  omega

end

/-- A new inode that no entry names yet. -/
def RamFs.add (s : RamFs) (spec : MakeFileSpec) : RamFs :=
  { s with
    nodes := s.nodes ++ [⟨spec.data, 0, 1, s.inoCtr⟩]
    inodes := update s.inodes s.inoCtr (some s.nodes.length)
    inoCtr := s.inoCtr + 1 }

theorem RamFs.getElem?_add_new (s : RamFs) (spec : MakeFileSpec) :
    (s.add spec).nodes[s.nodes.length]? = some ⟨spec.data, 0, 1, s.inoCtr⟩ :=
    getElem?_concat_length

theorem RamFs.getElem?_add_old {spec : MakeFileSpec} (old : s.nodes[k]? = some n) :
    (s.add spec).nodes[k]? = some n := by
  rw [← old]
  exact List.getElem?_append_left (List.getElem?_eq_some_iff.mp old).1

/-- The number of a new inode is not that of another. -/
theorem Inv.add_other (inv : Inv pending s) (old : s.nodes[k]? = some n) (spec : MakeFileSpec) :
    (s.add spec).inodes n.ino = s.inodes n.ino := update_of_ne (Nat.ne_of_lt (inv.bound old)) ..

theorem Inv.add (inv : Inv none s) (spec : MakeFileSpec) : Inv (some s.inoCtr) (s.add spec) := by
  have new := s.getElem?_add_new spec
  have back {k : Nat} {n : RamINode} (there : (s.add spec).nodes[k]? = some n) :
      s.nodes[k]? = some n ∨ (k = s.nodes.length ∧ n = ⟨spec.data, 0, 1, s.inoCtr⟩) := by
    by_cases old : k < s.nodes.length
    · rw [← there]
      exact .inl (getElem?_append_left old).symm
    · have last : k < (s.nodes ++ [_]).length := (List.getElem?_eq_some_iff.mp there).1
      rw [length_append] at last
      have same : k = s.nodes.length := by
        simp only [length_singleton] at last
        omega
      subst same
      exact .inr ⟨rfl, (Option.some.inj (new.symm.trans there)).symm⟩
  have named (i : Nat) : (s.add spec).named i = s.named i := by
    simp [RamFs.named, RamFs.add, MakeFileSpec.entries_data]
  have other {k : Nat} {n : RamINode} (old : s.nodes[k]? = some n) : n.ino ≠ s.inoCtr :=
    Nat.ne_of_lt (inv.bound old)
  have entry : (s.add spec).inodes s.inoCtr = some s.nodes.length := update_self ..
  constructor
  · intro k n there
    obtain old | ⟨-, rfl⟩ := back there
    · exact Nat.lt_succ_of_lt (inv.bound old)
    · exact Nat.lt_succ_self _
  · intro k k' n n' there there' same
    obtain old | ⟨rfl, rfl⟩ := back there <;> obtain old' | ⟨rfl, rfl⟩ := back there'
    · exact inv.distinct old old' same
    · exact absurd same (other old)
    · exact absurd same.symm (other old')
    · rfl
  · intro i k found
    by_cases same : i = s.inoCtr
    · subst same
      rw [entry] at found
      cases found
      exact ⟨_, new, rfl⟩
    · change update s.inodes _ _ i = _ at found
      rw [update_of_ne same] at found
      obtain ⟨n, old, ino⟩ := inv.listed found
      exact ⟨n, getElem?_add_old old, ino⟩
  · intro k n there
    obtain old | ⟨rfl, rfl⟩ := back there
    · rw [inv.add_other old]
      exact inv.kept old
    · rw [entry]
      simp
  · intro k n there
    rw [named]
    obtain old | ⟨rfl, rfl⟩ := back there
    · have before := inv.counted old
      simpa [owed, (other old).symm] using before
    · simp [inv.unnamed, owed]
  · intro k n name d there found
    obtain old | ⟨rfl, rfl⟩ := back there
    · obtain ⟨named, k', n', old', facts⟩ := inv.known old found
      exact ⟨named, k', n', getElem?_add_old old', facts⟩
    · rw [MakeFileSpec.entries_data] at found
      cases found
  · intro k n there out
    obtain old | ⟨rfl, rfl⟩ := back there
    · rw [inv.add_other old] at out
      exact inv.removed old out
    · exact absurd entry out
  · intro k n bytes there regular
    obtain old | ⟨rfl, rfl⟩ := back there
    · exact inv.sized old regular
    · cases spec <;> cases regular
      rfl
  · obtain ⟨n, old, links⟩ := inv.root
    exact ⟨n, getElem?_add_old old, links⟩

end BadgerOS.Ramfs
