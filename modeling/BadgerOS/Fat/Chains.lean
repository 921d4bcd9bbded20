import BadgerOS.Lib.Bytes
import BadgerOS.Lib.Outcome
import BadgerOS.Types

/-!
# Reading a cluster chain

`read_chain` follows the FAT from the first cluster of a file. Nothing stops it when it
comes to a cluster for the second time but a failed allocation, or the number of
clusters, which overflows in the end.
-/

namespace BadgerOS.FatChain

open Bytes List Relation

inductive FatType where
  | fat12
  | fat16
  | fat32

inductive FatValue where
  | next (cluster : Nat)
  | eoc
  | free
  | bad

structure FatFs where
  fatType : FatType
  clusterCount : Nat
  /-- The offset of the active FAT. -/
  fatOffset : Nat
  media : Nat → Byte
  /-- The accesses that fail, by offset and size. -/
  fails : Nat → Nat → Option Errno

namespace FatFs

variable (fs : FatFs) (reserve : Nat → Bool)

/-- `media.readk`, for the number that the bytes are. -/
def readk (off n : Nat) : Outcome Errno Nat := (fs.fails off n).elim (.ok (le fs.media off n)) .err

/-- The entry of a cluster, by its number in the FAT. -/
def entry (cluster : Nat) : Outcome Errno Nat :=
  match fs.fatType with
  | .fat12 => do
    let bytes ← fs.readk (fs.fatOffset + cluster * 3 / 2) 2
    let tmp := if cluster % 2 = 0 then bytes % 2 ^ 12 else bytes / 2 ^ 4
    pure (if 0xff7 ≤ tmp then tmp + 0x0ffff000 else tmp)
  | .fat16 => do
    let tmp ← fs.readk (fs.fatOffset + cluster * 2) 2
    pure (if 0xfff7 ≤ tmp then tmp + 0x0fff0000 else tmp)
  | .fat32 => do
    let tmp ← fs.readk (fs.fatOffset + cluster * 4) 4
    pure (tmp % 2 ^ 28)

def fatGet (cluster : Nat) : Outcome Errno FatValue :=
  if fs.clusterCount ≤ cluster ∨ 2 ^ 32 ≤ cluster + 2 then .panic
  else do
    let value ← fs.entry (cluster + 2)
    if value = 0 then pure .free
    else if value = 0x0ffffff7 then pure .bad
    else if value = 0x0fffffff then pure .eoc
    else if value < 2 then .err .eio
    else if 2 ^ 32 ≤ fs.clusterCount + 2 then .panic
    else if value < fs.clusterCount + 2 then pure (.next (value - 2))
    else .err .eio

/-- The loop of `read_chain`, when `k` more clusters fit in the number of clusters. The
ranges of a chain are kept as the clusters in them, and `reserve` says which pushes
are allocated. -/
def rounds : Nat → List Nat → Nat → Outcome Errno (List Nat)
  | 0, _, _ => if reserve 0 then .panic else .err .enomem
  | k + 1, chain, cluster =>
    if reserve (k + 1) then do
      match ← fs.fatGet cluster with
      | .next x => rounds k (chain ++ [cluster]) x
      | _ => pure (chain ++ [cluster])
    else .err .enomem

def readChain (start : Nat) : Outcome Errno (List Nat) := fs.rounds reserve (2 ^ 32 - 1) [] start

/-- What may be returned. An entry outside of the FAT is not read, but is a panic. -/
def Sound : Outcome Errno (List Nat) → Prop
  | .ok chain => chain.Nodup ∧ ∀ c ∈ chain, c < fs.clusterCount
  | .err _ => True
  | .panic | .hang => False

def Next (c d : Nat) : Prop := fs.fatGet c = .ok (.next d)

/-- The FAT leads to an end in at most `k` clusters, or to an error. -/
inductive Stops : Nat → Nat → Prop
  | full {k c} : reserve k = false → Stops k c
  | error {k c e} : fs.fatGet c = .err e → Stops (k + 1) c
  | last {k c v} : fs.fatGet c = .ok v → (∀ d, ¬ fs.Next c d) → Stops (k + 1) c
  | next {k c d} : fs.Next c d → Stops k d → Stops (k + 1) c

variable {fs reserve} {c d k : Nat} {v : FatValue} {chain : List Nat}

theorem lt_of_fatGet (value : fs.fatGet c = .ok v) : c < fs.clusterCount := by
  by_contra outside
  cases value.symm.trans (if_pos (.inl (Nat.le_of_not_lt outside)))

/-- A cluster from which an end is reached is not reached again. -/
theorem acyclic (ends : ∀ e, ¬ fs.Next d e) (path : ReflTransGen fs.Next c d) :
    ¬ TransGen fs.Next c c := by
  rw [TransGen.head'_iff]
  induction path using ReflTransGen.head_induction_on with
  | refl => exact fun ⟨e, leads, _⟩ => ends e leads
  | head leads _ ih =>
    rintro ⟨e, leads', back⟩
    cases leads.symm.trans leads'
    exact ih (TransGen.head'_iff.mp (.tail' back leads))

theorem sound_of_isChain (value : fs.fatGet d = .ok v) (ends : ∀ e, ¬ fs.Next d e)
    (linked : (chain ++ [d]).IsChain fs.Next) : fs.Sound (.ok (chain ++ [d])) := by
  have ahead := (linked.imp fun _ _ => TransGen.single).pairwise
  have path {x : Nat} (mem : x ∈ chain ++ [d]) : ReflTransGen fs.Next x d := by
    rcases mem_append.mp mem with inside | last
    · exact ((pairwise_append.mp ahead).2.2 x inside d mem_cons_self).to_reflTransGen
    · rw [mem_singleton.mp last]
  refine ⟨ahead.imp_of_mem fun mem _ loop same => ?_, fun x mem => ?_⟩
  · exact acyclic ends (path mem) (same ▸ loop)
  · rcases (path mem).cases_head with rfl | ⟨e, leads, -⟩
    · exact lt_of_fatGet value
    · exact lt_of_fatGet leads

theorem rounds_sound (stops : fs.Stops reserve k c) (linked : (chain ++ [c]).IsChain fs.Next) :
    fs.Sound (fs.rounds reserve k chain c) := by
  induction stops generalizing chain with
  | @full k _ fails =>
    cases k with
    | zero | succ k =>
      rw [rounds, fails]
      trivial
  | error value =>
    rw [rounds, value]
    split <;> trivial
  | @last _ _ v value ends =>
    have whole := sound_of_isChain value ends linked
    rw [rounds, value]
    split
    · cases v with
      | next x => cases ends x value
      | eoc | free | bad => exact whole
    · trivial
  | @next _ _ d leads _ ih =>
    rw [rounds, leads]
    split
    · exact ih (isChain_append.mpr ⟨linked, .singleton d, by simpa using leads⟩)
    · trivial

theorem stops_of_rounds (sound : fs.Sound (fs.rounds reserve k chain c)) :
    fs.Stops reserve k c := by
  induction k generalizing chain c with
  | zero =>
    rw [rounds] at sound
    split at sound
    · cases sound
    · exact .full (Bool.eq_false_iff.mpr ‹_›)
  | succ k ih =>
    rw [rounds] at sound
    split at sound
    · cases value : fs.fatGet c with
      | ok v =>
        rw [value] at sound
        cases v with
        | next x => exact .next value (ih sound)
        | eoc | free | bad => exact .last value fun d leads => nomatch value.symm.trans leads
      | err e => exact .error value
      | panic | hang =>
        rw [value] at sound
        cases sound
    · exact .full (Bool.eq_false_iff.mpr ‹_›)

/-- **A chain is read** exactly if the FAT leads from its first cluster to an end. -/
theorem readChain_sound_iff (start : Nat) :
    fs.Sound (fs.readChain reserve start) ↔ fs.Stops reserve (2 ^ 32 - 1) start :=
  ⟨stops_of_rounds, fun stops => rounds_sound stops (.singleton start)⟩

/-- A volume with a cluster that is its own successor. -/
def selfLink : FatFs := ⟨.fat16, 1, 0, fun i => if i = 4 then 2 else 0, fun _ _ => none⟩

theorem not_readChain_sound : ¬ selfLink.Sound (selfLink.readChain (fun _ => true) 0) := by
  have loops (k : Nat) chain : selfLink.rounds (fun _ => true) k chain 0 = .panic := by
    induction k generalizing chain with
    | zero => rfl
    | succ k ih => exact ih _
  rw [readChain, loops]
  exact id

end FatFs

end BadgerOS.FatChain
