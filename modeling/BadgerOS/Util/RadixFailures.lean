import BadgerOS.Lib.Fallible
import BadgerOS.Util.RadixMap

/-!
# Allocations that fail in the radix tree

`insert` of `util/rtree.rs` with an allocator that may fail at any allocation. New levels
take the root out of the tree, and when one cannot be allocated the root is dropped
with it.
-/

namespace BadgerOS.RadixTree

open Fallible Function Option Radix Nat

variable {V : Type}

inductive AllocError where
  | allocError
  deriving DecidableEq, Repr

/-- The state is the number of allocations that were tried. -/
abbrev Alloc := Fallible Nat AllocError

/-- `Box::try_new`. -/
def tryNew (ok : Nat → Bool) : Alloc Unit :=
  fun n => some (if ok n then .ok () else .error .allocError, n + 1)

section

variable (ok : Nat → Bool) (bits L key : Nat) (value : V)

def tryCreateSubtree : (h : Nat) → Alloc (Node V h)
  | 0 => do
    tryNew ok
    let k ← lift (subkey bits L key 0)
    tryNew ok
    pure (⟨1, update (fun _ => none) k (some value)⟩ : Slots V)
  | h + 1 => do
    let cur ← tryCreateSubtree h
    let k ← lift (subkey bits L key (h + 1))
    tryNew ok
    pure (⟨1, update (fun _ => none) k (some cur)⟩ : Slots (Node V h))

/-- The loop of `insert`. -/
def tryInsertNode : (h : Nat) → Node V h → Alloc (Option V × Node V h)
  | 0, (node : Slots V) => do
    let k ← lift (subkey bits L key 0)
    tryNew ok
    let old := node.array k
    let occupancy ← lift (if old.isNone then u8Succ node.occupancy else some node.occupancy)
    pure (old, (⟨occupancy, update node.array k (some value)⟩ : Slots V))
  | h + 1, (node : Slots (Node V h)) => do
    let k ← lift (subkey bits L key (h + 1))
    match node.array k with
    | some next => do
      let (old, next) ← tryInsertNode h next
      pure (old, (⟨node.occupancy, update node.array k (some next)⟩ : Slots (Node V h)))
    | none => do
      let subtree ← tryCreateSubtree ok bits L key value h
      let occupancy ← lift (u8Succ node.occupancy)
      pure (none, (⟨occupancy, update node.array k (some subtree)⟩ : Slots (Node V h)))

/-- The new levels. `take` leaves no root, and the new node owns it while its box is allocated. -/
def tryGrow : Nat → (Σ h, Node V h) → Nat → Option (Σ h, Node V h) × Nat
  | 0, root, tick => (some root, tick)
  | n + 1, ⟨h, node⟩, tick =>
    if ok tick then
      tryGrow n ⟨h + 1, (⟨1, update (fun _ => none) 0 (some node)⟩ : Slots (Node V h))⟩
        (tick + 1)
    else (none, tick + 1)

/-- How many levels `insert` adds over the root. -/
def newLevels (self : RadixTree V) : Option Nat :=
  match self.root with
  | some ⟨h, _⟩ => if isTooLarge L key (h + 1) then (keyHeight L key).map
    (· - (h + 1)) else some 0
  | none => some 0

/-- What `insert` returns, and the tree afterwards. -/
def tryInsert (self : RadixTree V) : Option (Except AllocError (Option V) × RadixTree V) := do
  let levels ← newLevels L key self
  match self.root with
  | some root =>
    match tryGrow ok levels root 0 with
    | (some ⟨h, node⟩, tick) => do
      let (result, _) ← tryInsertNode ok bits L key value h node tick
      pure (match result with
        | .ok (old, node) => (.ok old, ⟨some ⟨h, node⟩⟩)
        | .error e => (.error e, ⟨some ⟨h, node⟩⟩))
    | (none, _) => some (.error .allocError, ⟨none⟩)
  | none => do
    let height ← keyHeight L key
    let (result, _) ← tryCreateSubtree ok bits L key value (height - 1) 0
    pure (match result with
      | .ok subtree => (.ok none, ⟨some ⟨height - 1, subtree⟩⟩)
      | .error e => (.error e, self))

end

variable {ok : Nat → Bool} {bits L key h n tick : Nat}

/-- A level over the root changes no lookup. -/
theorem get_wrap (node : Node V h) (fits : (h + 1) * L < bits) (small : L < 64) (k : Nat) :
    get bits L ⟨some ⟨h + 1, wrap node⟩⟩ k =
      get bits L ⟨some ⟨h, node⟩⟩ k := by
  simp only [get]
  by_cases inside : k < 2 ^ ((h + 1) * L)
  · have wider :=
      inside.trans_le (Nat.pow_le_pow_right Nat.two_pos (Nat.mul_le_mul_right L (le_succ _)))
    have zero : subkey bits L k (h + 1) = some 0 := by
      rw [subkey, shiftRight_eq_div_pow, div_eq_of_lt inside,
        if_pos ⟨fits, by decide⟩, zero_mod]
    rw [if_neg (not_isTooLarge_iff.mpr wider), if_neg (not_isTooLarge_iff.mpr inside),
      getNode, zero]
    simp
  · rw [if_pos (isTooLarge_iff.mpr (Nat.not_lt.mp inside))]
    split
    · rfl
    · rename_i wider
      rw [not_isTooLarge_iff] at wider
      have digits : k >>> ((h + 1) * L) < usizeSize := by
        rw [shiftRight_eq_div_pow]
        apply Nat.div_lt_of_lt_mul
        rw [succ_mul, Nat.pow_add] at wider
        exact wider.trans_le
          (Nat.mul_le_mul_left _ (Nat.pow_le_pow_right (by decide) (by omega : L ≤ 64)))
      have ne : digit L k (h + 1) ≠ 0 := fun zero => inside ((digit_succ_eq_zero wider).mp zero)
      have top : subkey bits L k (h + 1) = some (digit L k (h + 1)) := if_pos ⟨fits, digits⟩
      simp [getNode, top, update_of_ne ne]

theorem tryGrow_get (small : L < 64) : ∀ {n h tick : Nat} (node : Node V h),
    (n ≠ 0 → (h + n) * L < bits) → match (tryGrow ok n ⟨h, node⟩ tick).1 with
    | some root => (∀ i < n, ok (tick + i) = true) ∧
      ∀ k, get bits L ⟨some root⟩ k = get bits L ⟨some ⟨h, node⟩⟩ k
    | none => ¬ ∀ i < n, ok (tick + i) = true := by
  intro n
  induction n with
  | zero => exact fun node _ => ⟨nofun, fun _ => rfl⟩
  | succ n ih =>
    intro h tick node fits
    have fits := fits (succ_ne_zero n)
    unfold tryGrow
    by_cases first : ok tick = true
    · have next : (h + 1) * L < bits := Nat.lt_of_le_of_lt (Nat.mul_le_mul_right L (by omega)) fits
      have rest := @ih (h + 1) (tick + 1) (wrap node)
        fun _ => by rwa [Nat.add_assoc, Nat.add_comm 1]
      have all : (∀ i < n + 1, ok (tick + i) = true) ↔ ∀ i < n, ok (tick + 1 + i) = true := by
        rw [forall_lt_succ_left]
        simp [first, Nat.add_assoc, Nat.add_comm 1]
      rw [if_pos first, all]
      revert rest
      cases (tryGrow ok n ⟨h + 1, wrap node⟩ (tick + 1)).1 with
      | none => exact id
      | some root =>
        exact fun rest => ⟨rest.1, fun k => (rest.2 k).trans (get_wrap node next small k)⟩
    · rw [if_neg first]
      exact fun all => first (all 0 (succ_pos n))

/-- A failed insert leaves all lookups as they were if and only if the new levels were allocated, or
there was
nothing to be lost. -/
theorem failed_insert_iff {value : V} {t t' : RadixTree V} {e : AllocError} (hbits : 0 < bits)
    (hkey : key < 2 ^ bits)
    (small : L < 64) (failed : tryInsert ok bits L key value t = some (.error e, t')) :
    (∀ k, t'.get bits L k = t.get bits L k) ↔
      (∀ i < (newLevels L key t).getD 0, ok i = true) ∨ ∀ k, t.get bits L k = some none := by
  obtain ⟨root⟩ := t
  obtain ⟨levels, new, failed⟩ := bind_eq_some_iff.mp failed
  rw [new, getD_some]
  cases root with
  | none =>
    obtain ⟨height, -, failed⟩ := bind_eq_some_iff.mp failed
    obtain ⟨⟨result, tick⟩, -, failed⟩ := bind_eq_some_iff.mp failed
    cases result with
    | ok subtree => cases failed
    | error e' =>
      cases failed
      cases new
      simp
  | some root =>
    obtain ⟨h, node⟩ := root
    have fits : levels ≠ 0 → (h + levels) * L < bits := by
      intro added
      unfold newLevels at new
      dsimp only at new
      split at new
      · obtain ⟨height, eq, rfl⟩ := map_eq_some_iff.mp new
        have positive : 0 < L := Nat.pos_of_ne_zero fun zero => by simp [keyHeight, zero] at eq
        obtain ⟨height', eq', -, -, within⟩ := keyHeight_spec positive hbits hkey
        cases eq.symm.trans eq'
        rwa [show h + (height - (h + 1)) = height - 1 by omega]
      · cases new
        contradiction
    have grown := @tryGrow_get V ok bits L small levels h 0 node fits
    simp only [Nat.zero_add] at grown
    dsimp only at failed
    split at failed
    · rename_i h' node' tick same
      rw [same] at grown
      obtain ⟨⟨result, tick'⟩, -, failed⟩ := bind_eq_some_iff.mp failed
      cases result with
      | ok found => cases failed
      | error e' =>
        cases failed
        exact ⟨fun _ => .inl grown.1, fun _ => grown.2⟩
    · rename_i tick same
      rw [same] at grown
      cases failed
      simp only [get] at *
      exact ⟨fun same => .inr fun k => (same k).symm, fun kept => kept.elim (absurd · grown)
        fun none k => (none k).symm⟩

/-- A leaf with one value. -/
def single : RadixTree Nat :=
  ⟨some ⟨0, (⟨1, update (fun _ => none) 0 (some 7)⟩ : Slots Nat)⟩⟩

/-- The new level cannot be allocated, and the value is lost. -/
theorem failed_insert_loses : ∃ t', tryInsert (fun _ => false) 32 4 16 9 single = some
    (.error .allocError, t') ∧ single.get 32 4 0 = some (some 7) ∧ t'.get 32 4 0 = some none :=
  ⟨⟨none⟩, rfl, by decide, rfl⟩

/-- The new level is allocated, and the box of the value is not. -/
theorem failed_insert_kept : ∃ t', tryInsert (fun i => i == 0) 32 4 16 9 single = some
    (.error .allocError, t') ∧ ∀ k, t'.get 32 4 k = single.get 32 4 k := by
  have failed : tryInsert (fun i => i == 0) 32 4 16 9 single = some (.error .allocError, _) := rfl
  exact ⟨_, failed, (failed_insert_iff (by decide) (by decide) (by decide) failed).mpr
    (.inl (by decide))⟩

end BadgerOS.RadixTree
