import BadgerOS.Lib.Bitmap
import BadgerOS.Lib.Interleaving

/-!
# The cluster allocator

`ClusterAlloc` of a FAT volume: a number of available clusters, and a bitmap with a
bit for each of them. A call reserves clusters by the number and then takes them from
the bitmap; each atomic operation is a step. `owned` is a ghost: the clusters that
files have.
-/

namespace BadgerOS.Clusters

open Bitmap

inductive Call where
  | alloc
  | allocChain (amount : Nat)
  deriving DecidableEq, Repr

/-- How many clusters the call reserves. -/
def Call.amount : Call → Nat
  | .alloc => 1
  | .allocChain amount => amount

inductive Pc where
  | idle
  /-- `available.load`. -/
  | load (file : Nat) (call : Call)
  /-- `available.compare_exchange_weak`, with the value from before. -/
  | reserve (file : Nat) (call : Call) (available : Nat)
  /-- `bitmap[i].load`. -/
  | pop (file : Nat) (call : Call) (i : Nat) (chain : List Nat)
  /-- `bitmap[i].compare_exchange`. -/
  | claim (file : Nat) (call : Call) (i : Nat) (cur : BitVec 64) (chain : List Nat)
  /-- `chain.try_reserve`. -/
  | grow (file amount i : Nat) (chain : List Nat) (cluster : Nat)
  /-- `free` of a cluster and then of the rest: `fetch_or`. -/
  | free (cluster : Nat) (rest : List Nat)
  /-- `available.fetch_add`. -/
  | add (rest : List Nat)
  deriving DecidableEq, Repr

structure ClusterAlloc where
  total : Nat
  available : Nat
  bitmap : List (BitVec 64)
  threads : List Pc
  /-- Clusters and the files that have them. -/
  owned : List (Nat × Nat)
  deriving DecidableEq, Repr

namespace ClusterAlloc

variable (s : ClusterAlloc)

def goto (t : Nat) (pc : Pc) : ClusterAlloc := { s with threads := s.threads.set t pc }

/-- The lowest bit that is set. -/
def mask (cur : BitVec 64) : BitVec 64 := cur ^^^ (cur &&& (cur - 1#64))

/-- What a call puts in the place of `cur`. -/
def claimed (call : Call) (cur : BitVec 64) : BitVec 64 :=
  match call with
  | .alloc => cur &&& ~~~mask cur
  | .allocChain _ => ~~~mask cur

/-- `alloc` goes on with a word, and `alloc_chain` unless it has all clusters. -/
def next (file : Nat) (call : Call) (i : Nat) (chain : List Nat) : Pc :=
  match call with
  | .alloc => .pop file call i chain
  | .allocChain amount => if amount ≤ chain.length then .idle else .pop file call i chain

/-- With a word that was read: the call tries to claim a cluster, or goes on. -/
def look (file : Nat) (call : Call) (i : Nat) (cur : BitVec 64) (chain : List Nat) : Pc :=
  if mask cur = 0 then next file call ((i + 1) % s.bitmap.length) chain
  else .claim file call i cur chain

/-- `free_chain`. -/
def freeChain : List Nat → Pc
  | [] => .idle
  | cluster :: rest => .free cluster rest

def run (t : Nat) : Option ClusterAlloc :=
  match s.threads[t]? with
  | some (.load file call) => some (s.goto t (.reserve file call s.available))
  | some (.reserve file call available) =>
    -- `checked_sub` fails with ENOSPC
    if available < call.amount then some (s.goto t .idle)
    else if s.available = available then
      some { s.goto t (next file call 0 []) with available := available - call.amount }
    else some (s.goto t (.reserve file call s.available))
  | some (.pop file call i chain) =>
    s.bitmap[i]?.map fun cur => s.goto t (s.look file call i cur chain)
  | some (.claim file call i cur chain) =>
    s.bitmap[i]?.map fun word =>
      if word = cur then
        let cluster := trailingZeros (mask cur) + i * 64
        { s.goto t (match call with
            | .alloc => .idle
            | .allocChain amount => .grow file amount i chain cluster) with
          bitmap := s.bitmap.set i (claimed call cur)
          owned := (cluster, file) :: s.owned }
      else s.goto t (s.look file call i word chain)
  | some (.grow file amount i chain cluster) =>
    some (s.goto t (next file (.allocChain amount) i (chain ++ [cluster])))
  | some (.free cluster rest) =>
    s.bitmap[cluster / 64]?.map fun word =>
      { s.goto t (if word.getLsbD (cluster % 64) then freeChain rest else .add rest) with
        bitmap := s.bitmap.set (cluster / 64) (word ||| 1#64 <<< (cluster % 64)) }
  | some (.add rest) => some { s.goto t (freeChain rest) with available := s.available + 1 }
  | _ => none

end ClusterAlloc

inductive Event where
  | alloc (t file : Nat)
  | allocChain (t file amount : Nat)
  /-- A file gives up a cluster. -/
  | free (t file cluster : Nat)
  | run (t : Nat)
  /-- A weak exchange fails for no reason. -/
  | spurious (t : Nat)
  /-- There is no memory for the chain. -/
  | noMemory (t : Nat)
  deriving DecidableEq, Repr

open ClusterAlloc in
def step (event : Event) (s : ClusterAlloc) : Option ClusterAlloc :=
  match event with
  | .alloc t file => if s.threads[t]? = some .idle then some (s.goto t (.load file .alloc))
    else none
  | .allocChain t file amount =>
    if s.threads[t]? = some .idle then some (s.goto t (.load file (.allocChain amount))) else none
  | .free t file cluster =>
    if s.threads[t]? = some .idle ∧ (cluster, file) ∈ s.owned then
      some { s.goto t (.free cluster []) with owned := s.owned.erase (cluster, file) }
    else none
  | .run t => s.run t
  | .spurious t => match s.threads[t]? with
    | some (.reserve file call available) =>
      if available < call.amount then none else some (s.goto t (.reserve file call s.available))
    | _ => none
  | .noMemory t => match s.threads[t]? with
    | some (.grow _ _ _ chain _) => some (s.goto t (freeChain chain))
    | _ => none

end BadgerOS.Clusters
