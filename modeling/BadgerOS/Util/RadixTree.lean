import BadgerOS.Lib.Radix
import BadgerOS.Machine

/-!
# The radix tree

`RadixTree` of `util/rtree.rs`, for keys of `bits` bits and nodes of `2 ^ L`
slots. A call that panics or never returns has the result `none`; allocations
succeed. The way back over the parent pointers is the way the recursion returns.
-/

namespace BadgerOS

open Function

/-- The occupancy count and the slots of a node. -/
structure Slots (α : Type) where
  occupancy : Nat
  array : Nat → Option α

/-- A node of some height: a leaf holds values, the others hold nodes. -/
def Node (V : Type) : Nat → Type
  | 0 => Slots V
  | h + 1 => Slots (Node V h)

structure RadixTree (V : Type) where
  root : Option (Σ h, Node V h)

namespace RadixTree

variable {V : Type}

def new : RadixTree V := ⟨none⟩

/-- `+ 1` on `u8`, with the overflow check. -/
def u8Succ (x : Nat) : Option Nat := if x + 1 < 256 then some (x + 1) else none

/-- `- 1` on `u8`, with the overflow check. -/
def u8Pred (x : Nat) : Option Nat := if 1 ≤ x then some (x - 1) else none

/-- The shift is checked, and so is the conversion to `usize`. -/
def subkey (bits L key height : Nat) : Option Nat :=
  if height * L < bits ∧ key >>> (height * L) < usizeSize then
    some ((key >>> (height * L)) % 2 ^ L)
  else none

def isTooLarge (L key height : Nat) : Bool := height * L < Nat.size key

/-- The division by `L` is checked. -/
def keyHeight (L key : Nat) : Option Nat :=
  if L = 0 then none else some (max ((Nat.size key + L - 1) / L) 1)

/-- The subtree of height `h` with one value. The source counts its levels, one
more than the height. -/
def createSubtree (bits L key : Nat) (value : V) : (h : Nat) → Option (Node V h)
  | 0 => do
    let k ← subkey bits L key 0
    pure (⟨1, update (fun _ => none) k (some value)⟩ : Slots V)
  | h + 1 => do
    let cur ← createSubtree bits L key value h
    let k ← subkey bits L key (h + 1)
    pure (⟨1, update (fun _ => none) k (some cur)⟩ : Slots (Node V h))

/-- Put `n` more levels over the root. -/
def grow : Nat → (Σ h, Node V h) → Σ h, Node V h
  | 0, root => root
  | n + 1, ⟨h, node⟩ =>
    grow n ⟨h + 1, (⟨1, update (fun _ => none) 0 (some node)⟩ : Slots (Node V h))⟩

abbrev wrap {h : Nat} (node : Node V h) : Slots (Node V h) :=
  ⟨1, update (fun _ => none) 0 (some node)⟩

/-- The loop of `insert`: the old value, and the node with the new one. -/
def insertNode (bits L key : Nat) (value : V) : (h : Nat) → Node V h →
    Option (Option V × Node V h)
  | 0, (node : Slots V) => do
    let k ← subkey bits L key 0
    let old := node.array k
    let occupancy ← if old.isNone then u8Succ node.occupancy else some node.occupancy
    pure (old, (⟨occupancy, update node.array k (some value)⟩ : Slots V))
  | h + 1, (node : Slots (Node V h)) => do
    let k ← subkey bits L key (h + 1)
    match node.array k with
    | some next => do
      let (old, next) ← insertNode bits L key value h next
      pure (old, (⟨node.occupancy, update node.array k (some next)⟩ : Slots (Node V h)))
    | none => do
      let subtree ← createSubtree bits L key value h
      let occupancy ← u8Succ node.occupancy
      pure (none, (⟨occupancy, update node.array k (some subtree)⟩ : Slots (Node V h)))

def insert (bits L : Nat) (self : RadixTree V) (key : Nat) (value : V) :
    Option (Option V × RadixTree V) :=
  match self.root with
  | some ⟨h, node⟩ => do
    let ⟨h, node⟩ ←
      if isTooLarge L key (h + 1) then do
        let height ← keyHeight L key
        pure (grow (height - (h + 1)) ⟨h, node⟩)
      else pure ⟨h, node⟩
    let (old, node) ← insertNode bits L key value h node
    pure (old, ⟨some ⟨h, node⟩⟩)
  | none => do
    let height ← keyHeight L key
    let subtree ← createSubtree bits L key value (height - 1)
    pure (none, ⟨some ⟨height - 1, subtree⟩⟩)

/-- The loop of `remove` and `gc`: the old value, the node without it, and whether
the node is a leaf that is to be freed. `gc` clears the slot of such a leaf in its
parent; then it returns, or never does if the parent's occupancy is zero. -/
def removeNode (bits L key : Nat) : (h : Nat) → Node V h → Option (Option V × Node V h × Bool)
  | 0, (node : Slots V) => do
    let k ← subkey bits L key 0
    let occupancy ← u8Pred node.occupancy
    pure (node.array k, (⟨occupancy, update node.array k none⟩ : Slots V), occupancy = 0)
  | h + 1, (node : Slots (Node V h)) => do
    let k ← subkey bits L key (h + 1)
    match node.array k with
    | none => pure (none, (node : Slots (Node V h)), false)
    | some next => do
      let (old, next, free) ← removeNode bits L key h next
      if free then
        if node.occupancy > 0 then
          pure (old, (⟨node.occupancy, update node.array k none⟩ : Slots (Node V h)), false)
        else none
      else
        pure (old, (⟨node.occupancy, update node.array k (some next)⟩ : Slots (Node V h)),
          false)

def remove (bits L : Nat) (self : RadixTree V) (key : Nat) : Option (Option V × RadixTree V) :=
  match self.root with
  | some ⟨h, node⟩ =>
    if isTooLarge L key (h + 1) then some (none, self)
    else do
      let (old, node, free) ← removeNode bits L key h node
      pure (old, ⟨if free then none else some ⟨h, node⟩⟩)
  | none => some (none, self)

def getNode (bits L key : Nat) : (h : Nat) → Node V h → Option (Option V)
  | 0, (node : Slots V) => do
    let k ← subkey bits L key 0
    pure (node.array k)
  | h + 1, (node : Slots (Node V h)) => do
    let k ← subkey bits L key (h + 1)
    match node.array k with
    | some next => getNode bits L key h next
    | none => pure none

def get (bits L : Nat) (self : RadixTree V) (key : Nat) : Option (Option V) :=
  match self.root with
  | some ⟨h, node⟩ => if isTooLarge L key (h + 1) then some none else getNode bits L key h node
  | none => some none

/-- The entries from a node on, in the order of their keys. -/
def Node.entries (L : Nat) : (h : Nat) → Node V h → (base : Nat) → List (Nat × V)
  | 0, (node : Slots V), base =>
    (List.range (2 ^ L)).filterMap fun i => (node.array i).map fun v => (base + i, v)
  | h + 1, (node : Slots (Node V h)), base =>
    (List.range (2 ^ L)).flatMap fun i =>
      match node.array i with
      | some next => Node.entries L h next (base + i * 2 ^ ((h + 1) * L))
      | none => []

/-- What the iterator yields. -/
def iter (L : Nat) (self : RadixTree V) : List (Nat × V) :=
  match self.root with
  | some ⟨h, node⟩ => Node.entries L h node 0
  | none => []

/-- What is found on the way down, without the checks. -/
def Node.lookup (L key : Nat) : (h : Nat) → Node V h → Option V
  | 0, (node : Slots V) => node.array (Radix.digit L key 0)
  | h + 1, (node : Slots (Node V h)) =>
    (node.array (Radix.digit L key (h + 1))).bind fun next => Node.lookup L key h next

/-- The map that the tree stands for. -/
def lookup (L : Nat) (self : RadixTree V) (key : Nat) : Option V :=
  match self.root with
  | some ⟨h, node⟩ => if key < 2 ^ ((h + 1) * L) then Node.lookup L key h node else none
  | none => none

/-- Counts are right up to `slack` slots that were cleared and not counted, and
no node is empty. In a leaf the count is exact. -/
def Node.Counted (L slack : Nat) : (h : Nat) → Node V h → Prop
  | 0, (node : Slots V) =>
    node.occupancy = Radix.filled L node.array ∧ 0 < node.occupancy ∧ node.occupancy < 256
  | h + 1, (node : Slots (Node V h)) =>
    (Radix.filled L node.array ≤ node.occupancy ∧
    node.occupancy ≤ Radix.filled L node.array + slack ∧
      0 < node.occupancy ∧ node.occupancy < 256) ∧
    ∀ k next, node.array k = some next → Node.Counted L slack h next

/-- No node counts more than `slack` slots that are empty. -/
def Node.Within (L slack : Nat) : (h : Nat) → Node V h → Prop
  | 0, _ => True
  | h + 1, (node : Slots (Node V h)) => node.occupancy ≤ Radix.filled L node.array + slack ∧
    ∀ k next, node.array k = some next → Node.Within L slack h next

/-- A node with a free slot can count one more. -/
def Node.Roomy (L : Nat) : (h : Nat) → Node V h → Prop
  | 0, (node : Slots V) => Radix.filled L node.array < 2 ^ L → node.occupancy < 255
  | h + 1, (node : Slots (Node V h)) =>
    (Radix.filled L node.array < 2 ^ L → node.occupancy < 255) ∧
    ∀ k next, node.array k = some next → Node.Roomy L h next

/-- `Node.Counted` from the root on, which the key type is wide enough for. -/
def Counted (bits L slack : Nat) (self : RadixTree V) : Prop :=
  ∀ h node, self.root = some ⟨h, node⟩ → h * L < bits ∧ Node.Counted L slack h node

def Within (L slack : Nat) (self : RadixTree V) : Prop :=
  ∀ h node, self.root = some ⟨h, node⟩ → Node.Within L slack h node

def Roomy (L : Nat) (self : RadixTree V) : Prop := ∀ h node, self.root = some ⟨h, node⟩ →
    Node.Roomy L h node

/-- Another key of the leaf of `key` is present. -/
def Shared (L : Nat) (self : RadixTree V) (key : Nat) : Prop :=
  ∃ k, k ≠ key ∧ k / 2 ^ L = key / 2 ^ L ∧ self.lookup L k ≠ none

/-- The root is a leaf. -/
def OneLeaf (self : RadixTree V) : Prop := ∃ node, self.root = some ⟨0, node⟩

/-- Every node counts exactly its slots that are not empty. -/
def Node.Exact (L : Nat) : (h : Nat) → Node V h → Prop
  | 0, (node : Slots V) => node.occupancy = Radix.filled L node.array
  | h + 1, (node : Slots (Node V h)) => node.occupancy = Radix.filled L node.array ∧
    ∀ k next, node.array k = some next → Node.Exact L h next

def Exact (L : Nat) (self : RadixTree V) : Prop := ∀ h node, self.root = some ⟨h, node⟩ →
    Node.Exact L h node

inductive Call (V : Type) where
  | insert (key : Nat) (value : V)
  | remove (key : Nat)
  | get (key : Nat)
  deriving DecidableEq, Repr

namespace Call

def key : Call V → Nat
  | .insert key _ | .remove key | .get key => key

def exec (bits L : Nat) (t : RadixTree V) : Call V → Option (Option V × RadixTree V)
  | .insert key value => t.insert bits L key value
  | .remove key => t.remove bits L key
  | .get key => (t.get bits L key).map fun v => (v, t)

/-- What the call does to a finite map. -/
def onMap (m : Nat → Option V) : Call V → Option V × (Nat → Option V)
  | .insert key value => (m key, update m key (some value))
  | .remove key => (m key, update m key none)
  | .get key => (m key, m)

/-- Keys fit into a `usize`. A table with a free slot counts less than 255. A
removed key is present, and its leaf keeps another key or is the whole tree; or no
key of its leaf is present. -/
def Meets (L : Nat) (t : RadixTree V) (call : Call V) : Prop :=
  call.key < usizeSize ∧
  match call with
  | .insert _ _ => L ≤ 7 ∨ t.Roomy L
  | .remove key => (t.lookup L key ≠ none ∧ (t.Shared L key ∨ t.OneLeaf)) ∨
    ∀ k, k / 2 ^ L = key / 2 ^ L → t.lookup L k = none
  | .get _ => True

end Call

/-- Every call returns what it returns for a finite map, and counts are exact
before and after it. -/
def IsMap (bits L : Nat) : List (Call V) → RadixTree V → (Nat → Option V) → Prop
  | [], t, _ => t.Exact L
  | call :: rest, t, m => t.Exact L ∧
    ∃ t', call.exec bits L t = some ((call.onMap m).1, t') ∧
      IsMap bits L rest t' (call.onMap m).2

/-- Every call meets its condition in the tree that it is made on. -/
def Conforms (bits L : Nat) : List (Call V) → RadixTree V → Prop
  | [], _ => True
  | call :: rest, t => call.Meets L t ∧
    ∀ r t', call.exec bits L t = some (r, t') → Conforms bits L rest t'

end RadixTree

end BadgerOS
