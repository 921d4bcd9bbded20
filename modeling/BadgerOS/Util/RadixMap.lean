import BadgerOS.Util.RadixTree

/-!
# The radix tree is a finite map

As long as removed keys are present, the tree answers like a map; its counts are
exact as long as, in addition, no leaf under another node is emptied.
-/

namespace BadgerOS.RadixTree

open Radix Function Option Nat

variable {V : Type} {bits L slack h k key slack' : Nat}

theorem subkey_run (hb : h * L < bits) (hk : key < usizeSize) : subkey bits L key h = some
    (digit L key h) := by
  have small : key >>> (h * L) < usizeSize := by
    rw [shiftRight_eq_div_pow]
    exact (div_le_self ..).trans_lt hk
  rw [subkey, if_pos ⟨hb, small⟩, digit]

theorem lower_shift (hb : (h + 1) * L < bits) : h * L < bits :=
  (mul_le_mul_right L (le_succ h)).trans_lt hb

/-- Keys of one leaf have the same way down to it. -/
theorem digit_of_group (group : k / 2 ^ L = key / 2 ^ L) : digit L k (h + 1) = digit L key
    (h + 1) := by
  rw [digit_eq, digit_eq, Nat.succ_mul, Nat.add_comm (h * L) L, Nat.pow_add,
    ← Nat.div_div_eq_div_mul, ← Nat.div_div_eq_div_mul, group]

theorem lookup_leaf (node : Slots V) : Node.lookup L k 0 node = node.array (digit L k 0) := rfl

theorem lookup_inner (node : Slots (Node V h)) : Node.lookup L k (h + 1) node =
    (node.array (digit L k (h + 1))).bind fun next => Node.lookup L k h next := rfl

variable {array : Nat → Option V} {α : Type} {i : Nat} {node : Slots (Node V h)} {v : V}

section Nodes

variable {occupancy : Nat}

theorem lookup_leaf_mk : Node.lookup L k 0 (⟨occupancy, array⟩ : Slots V) = array
    (digit L k 0) := rfl

theorem lookup_inner_mk {array : Nat → Option (Node V h)} :
    Node.lookup L k (h + 1) (⟨occupancy, array⟩ : Slots (Node V h)) =
      (array (digit L k (h + 1))).bind fun next => Node.lookup L k h next := rfl

theorem counted_leaf (count : occupancy = filled L array) (pos : 0 < occupancy)
    (small : occupancy < 256) : Node.Counted L slack 0 (⟨occupancy, array⟩ : Slots V) :=
  ⟨count, pos, small⟩

theorem counted_inner {array : Nat → Option (Node V h)} (low : filled L array ≤ occupancy)
    (high : occupancy ≤ filled L array + slack) (pos : 0 < occupancy) (small : occupancy < 256)
    (children : ∀ k next, array k = some next → Node.Counted L slack h next) :
    Node.Counted L slack (h + 1) (⟨occupancy, array⟩ : Slots (Node V h)) :=
  ⟨⟨low, high, pos, small⟩, children⟩

end Nodes

theorem Node.Counted.mono (le : slack ≤ slack') : ∀ {h : Nat} {node : Node V h},
    Node.Counted L slack h node → Node.Counted L slack' h node
  | 0, _, counted => counted
  | _ + 1, _, ⟨⟨low, high, pos, small⟩, children⟩ =>
    ⟨⟨low, by omega, pos, small⟩, fun k next slot => (children k next slot).mono le⟩

/-- A present child in a table with one slot changed. -/
theorem update_slot {array : Nat → Option α} {P : α → Prop} {x : Option α}
    (rest : ∀ k y, array k = some y → P y) (new : ∀ y, x = some y → P y) :
    ∀ k y, update array i x k = some y → P y := by
  intro k y slot
  by_cases hk : k = i
  · subst hk
    rw [update_self] at slot
    exact new y slot
  · rw [update_of_ne hk] at slot
    exact rest k y slot

theorem filled_one (i : Nat) (hi : i < 2 ^ L) (x : α) :
    filled L (update (fun _ => none) i (some x)) = 1 := by
  rw [filled_set_new hi rfl, filled_none]

theorem createSubtree_spec (value : V) (slack : Nat) (hk : key < usizeSize) : ∀ {h : Nat},
    h * L < bits →
    ∃ node, createSubtree bits L key value h = some node ∧ Node.Counted L slack h node ∧
      ∀ k, Node.lookup L k h node = if low L h k = low L h key then some value else none := by
  intro h
  induction h with
  | zero =>
    intro hb
    refine ⟨_, by rw [createSubtree, subkey_run hb hk]; rfl, ?_, ?_⟩
    · exact counted_leaf (filled_one _ digit_lt value).symm Nat.one_pos (by decide)
    · intro k
      rw [lookup_leaf_mk, low_zero, low_zero, update_apply]
  | succ h ih =>
    intro hb
    obtain ⟨cur, run, counted, lookups⟩ := ih (lower_shift hb)
    have one := filled_one (digit L key (h + 1)) digit_lt cur
    refine ⟨_, by rw [createSubtree, run, bind_eq_bind, bind_some,
      subkey_run hb hk]; rfl, ?_, ?_⟩
    · apply counted_inner one.le (by omega) Nat.one_pos (by decide)
      apply update_slot
      · nofun
      · rintro _ ⟨⟩
        exact counted
    · intro k
      rw [lookup_inner_mk, update_apply]
      by_cases same : digit L k (h + 1) = digit L key (h + 1)
      · rw [if_pos same, bind_some, lookups k]
        simp [low_succ_inj, same]
      · rw [if_neg same, if_neg fun eq => same (low_succ_inj.mp eq).1]
        rfl

/-- Looking up a key after one slot of an inner node was changed. -/
theorem lookup_update {new : Option V} (occupancy : Nat) (next : Option (Node V h))
    (below : ∀ k, (next.bind fun next => Node.lookup L k h next) = if low L h k = low L h
    key then new
      else (node.array (digit L key (h + 1))).bind fun next => Node.lookup L k h next) (k : Nat) :
    Node.lookup L k (h + 1) (⟨occupancy, update node.array (digit L key (h + 1)) next⟩ : Slots
      (Node V h)) =
      if low L (h + 1) k = low L (h + 1) key then new else Node.lookup L k (h + 1) node := by
  rw [lookup_inner_mk, lookup_inner, update_apply]
  by_cases same : digit L k (h + 1) = digit L key (h + 1)
  · rw [if_pos same, below k]
    simp [low_succ_inj, same]
  · rw [if_neg same, if_neg fun eq => same (low_succ_inj.mp eq).1]

theorem insertNode_spec (value : V) (hk : key < usizeSize) : ∀ {h : Nat} {node : Node V h},
    h * L < bits → Node.Counted L slack h node → Node.Roomy L h node →
    ∃ node', insertNode bits L key value h node = some (Node.lookup L key h node, node') ∧
      Node.Counted L slack h node' ∧
      ∀ k, Node.lookup L k h node' =
        if low L h k = low L h key then some value else Node.lookup L k h node := by
  intro h
  induction h with
  | zero =>
    rintro (node : Slots V) hb ⟨count, pos, small⟩ roomy
    have lookups : ∀ occupancy k, Node.lookup L k 0 (⟨occupancy,
        update node.array (digit L key 0) (some value)⟩) =
        if low L 0 k = low L 0 key then some value else Node.lookup L k 0 node := by
      intro occupancy k
      rw [lookup_leaf_mk, lookup_leaf, low_zero, low_zero, update_apply]
    cases slot : node.array (digit L key 0) with
    | none =>
      have room := roomy (filled_lt digit_lt slot)
      refine ⟨_, ?_, ?_, lookups (node.occupancy + 1)⟩
      · simp [insertNode, subkey_run hb hk, slot, u8Succ,
          show node.occupancy + 1 < 256 by omega, lookup_leaf]
      · apply counted_leaf _ (succ_pos _) (by omega)
        rw [filled_set_new digit_lt slot, count]
    | some old =>
      refine ⟨_, ?_, ?_, lookups node.occupancy⟩
      · simp [insertNode, subkey_run hb hk, slot, lookup_leaf]
      · apply counted_leaf _ pos small
        rw [filled_set_old slot, count]
  | succ h ih =>
    rintro (node : Slots (Node V h)) hb ⟨⟨low, high, pos, small⟩, children⟩
      ⟨roomy, rooms⟩
    cases slot : node.array (digit L key (h + 1)) with
    | none =>
      have room := roomy (filled_lt digit_lt slot)
      obtain ⟨subtree, run, counted, lookups⟩ :=
        createSubtree_spec value slack hk (lower_shift hb)
      refine ⟨_, ?_, ?_, lookup_update (node.occupancy + 1) (some subtree) ?_⟩
      · simp [insertNode, subkey_run hb hk, slot, run, u8Succ,
          show node.occupancy + 1 < 256 by omega, lookup_inner]
      · have more := filled_set_new (x := subtree) digit_lt slot
        apply counted_inner (by omega) (by omega) (succ_pos _) (by omega)
        apply update_slot children
        rintro _ ⟨⟩
        exact counted
      · intro k
        rw [slot, bind_some, lookups k]
        rfl
    | some next =>
      obtain ⟨next', run, counted, lookups⟩ :=
        ih (lower_shift hb) (children _ _ slot) (rooms _ _ slot)
      refine ⟨_, ?_, ?_, lookup_update node.occupancy (some next') ?_⟩
      · simp [insertNode, subkey_run hb hk, slot, run, lookup_inner]
      · have same := filled_set_old (L := L) (x := next') slot
        apply counted_inner (by omega) (by omega) pos small
        apply update_slot children
        rintro _ ⟨⟩
        exact counted
      · intro k
        rw [slot, bind_some, lookups k]
        rfl

/-- Another key of the leaf of `key` is present. -/
def Node.Shared (L key h : Nat) (node : Node V h) : Prop :=
  ∃ k, k ≠ key ∧ k / 2 ^ L = key / 2 ^ L ∧ Node.lookup L k h node ≠ none

theorem Node.Shared.child {next : Node V h} (slot : node.array (digit L key (h + 1)) = some next) :
    Node.Shared L key (h + 1) node ↔ Node.Shared L key h next := by
  have same : ∀ k, k / 2 ^ L = key / 2 ^ L →
      Node.lookup L k (h + 1) node = Node.lookup L k h next := by
    intro k group
    rw [lookup_inner, digit_of_group group, slot, bind_some]
  constructor
  · rintro ⟨k, other, group, present⟩
    exact ⟨k, other, group, same k group ▸ present⟩
  · rintro ⟨k, other, group, present⟩
    exact ⟨k, other, group, (same k group).symm ▸ present⟩

theorem digit_zero_ne (other : k ≠ key) (group : k / 2 ^ L = key / 2 ^ L) :
    digit L k 0 ≠ digit L key 0 := by
  rw [digit_eq, digit_eq, Nat.zero_mul, Nat.pow_zero, Nat.div_one, Nat.div_one]
  intro same
  apply other
  rw [← div_add_mod k (2 ^ L), ← div_add_mod key (2 ^ L), group, same]

/-- The removal of a present key. A leaf is freed if it held nothing else; its
parent then has one slot less than it counts. In a leaf the count does not depend on the slack. -/
theorem removeNode_present (hk : key < usizeSize) (le : slack ≤ slack') :
    ∀ {h : Nat} {node : Node V h}, h * L < bits → Node.Counted L slack h node →
    Node.lookup L key h node = some v →
      (h = 0 ∨ slack < slack' ∨ Node.Shared L key h node) →
    ∃ node' free, removeNode bits L key h node = some (some v, node', free) ∧
      (free = true → ¬ Node.Shared L key h node ∧ ∀ k, Node.lookup L k h node' = none) ∧
      (free = false → Node.Counted L slack' h node') ∧
      ∀ k, Node.lookup L k h node' =
        if low L h k = low L h key then none else Node.lookup L k h node := by
  intro h
  induction h with
  | zero =>
    rintro (node : Slots V) hb ⟨count, pos, small⟩ present -
    rw [lookup_leaf] at present
    have fewer := filled_clear digit_lt present
    refine ⟨⟨node.occupancy - 1, update node.array (digit L key 0) none⟩,
      decide (node.occupancy - 1 = 0), ?_, ?_, ?_, ?_⟩
    · simp [removeNode, subkey_run hb hk, present, u8Pred, show 1 ≤ node.occupancy by omega]
    · intro free
      have empty : ∀ i, i < 2 ^ L → update node.array (digit L key 0) none i = none := by
        intro i hi
        by_contra used
        obtain ⟨w, used⟩ := ne_none_iff_exists'.mp used
        have := filled_pos hi used
        have := of_decide_eq_true free
        omega
      refine ⟨?_, fun k => empty _ digit_lt⟩
      rintro ⟨k, other, group, another⟩
      have gone := empty (digit L k 0) digit_lt
      rw [update_of_ne (digit_zero_ne other group)] at gone
      exact another gone
    · intro kept
      have := of_decide_eq_false kept
      exact counted_leaf (by omega) (by omega) (by omega)
    · intro k
      rw [lookup_leaf_mk, lookup_leaf, low_zero, low_zero, update_apply]
  | succ h ih =>
    rintro node hb ⟨⟨low, high, pos, small⟩, children⟩ present keeps
    obtain ⟨next, slot, present⟩ := bind_eq_some_iff.mp present
    replace keeps := keeps.resolve_left (succ_ne_zero h)
    rw [Node.Shared.child slot] at keeps
    obtain ⟨next', free, run, freed, kept, lookups⟩ :=
      ih (lower_shift hb) (children _ _ slot) present (.inr keeps)
    cases free with
    | true =>
      obtain ⟨alone, empty⟩ := freed rfl
      have fewer := filled_clear digit_lt slot
      have more := keeps.resolve_right alone
      refine ⟨_, false, ?_, nofun, fun _ => ?_, lookup_update node.occupancy none ?_⟩
      · simp [removeNode, subkey_run hb hk, slot, run, pos]
      · apply counted_inner (by omega) (by omega) pos small
        apply update_slot
        · exact fun k next slot => (children k next slot).mono le
        · nofun
      · intro k
        rw [slot, bind_some, ← lookups k, empty k]
        rfl
    | false =>
      have same := filled_set_old (L := L) (x := next') slot
      refine ⟨_, false, ?_, nofun, fun _ => ?_, lookup_update node.occupancy (some next') ?_⟩
      · simp [removeNode, subkey_run hb hk, slot, run]
      · apply counted_inner (by omega) (by omega) pos small
        apply update_slot
        · exact fun k next slot => (children k next slot).mono le
        · rintro _ ⟨⟩
          exact kept rfl
      · intro k
        rw [slot, bind_some, lookups k]
        rfl

/-- The removal of a key none of whose neighbours is present finds no leaf. -/
theorem removeNode_absent (hk : key < usizeSize) : ∀ {h : Nat} {node : Node V h}, h * L < bits →
    Node.Counted L slack h node →
      (∀ k, k / 2 ^ L = key / 2 ^ L → Node.lookup L k h node = none) →
    removeNode bits L key h node = some (none, node, false) := by
  intro h
  induction h with
  | zero =>
    rintro (node : Slots V) hb ⟨count, pos, -⟩ absent
    obtain ⟨i, v, hi, used⟩ := exists_of_filled_pos (count ▸ pos)
    have here := absent _ (by
      rw [Nat.mul_add_div (Nat.two_pow_pos L), Nat.div_eq_of_lt hi, Nat.add_zero])
    have slot : digit L (2 ^ L * (key / 2 ^ L) + i) 0 = i := by
      rw [digit_eq, Nat.zero_mul, Nat.pow_zero, Nat.div_one, Nat.mul_add_mod, Nat.mod_eq_of_lt hi]
    rw [lookup_leaf, slot, used] at here
    cases here
  | succ h ih =>
    rintro (node : Slots (Node V h)) hb ⟨-, children⟩ absent
    cases slot : node.array (digit L key (h + 1)) with
    | none => simp [removeNode, subkey_run hb hk, slot]
    | some next =>
      have run := ih (lower_shift hb) (children _ _ slot) fun k group => by
        have := absent k group
        rwa [lookup_inner, digit_of_group group, slot, bind_some] at this
      have back : update node.array (digit L key (h + 1)) (some next) = node.array := by
        rw [← slot, update_eq_self]
      simp [removeNode, subkey_run hb hk, slot, run, back]

theorem getNode_run (hk : key < usizeSize) : ∀ {h : Nat} {node : Node V h}, h * L < bits →
    getNode bits L key h node = some (Node.lookup L key h node) := by
  intro h
  induction h with
  | zero =>
    rintro (node : Slots V) hb
    simp [getNode, subkey_run hb hk, lookup_leaf]
  | succ h ih =>
    rintro (node : Slots (Node V h)) hb
    cases slot : node.array (digit L key (h + 1)) with
    | none => simp [getNode, subkey_run hb hk, slot, lookup_inner]
    | some next => simp [getNode, subkey_run hb hk, slot, lookup_inner, ih (lower_shift hb)]

theorem isTooLarge_iff : isTooLarge L key h = true ↔ 2 ^ (h * L) ≤ key := by
  rw [isTooLarge, decide_eq_true_eq, lt_size]

theorem not_isTooLarge_iff : ¬ isTooLarge L key h = true ↔ key < 2 ^ (h * L) := by
  rw [isTooLarge_iff, not_le]

/-- The computed height is enough for the key, and the key type for the height. -/
theorem keyHeight_spec (hL : 0 < L) (hbits : 0 < bits) (hkey : key < 2 ^ bits) :
    ∃ n, keyHeight L key = some n ∧ 0 < n ∧ key < 2 ^ (n * L) ∧ (n - 1) * L < bits := by
  refine ⟨_, if_neg hL.ne', by omega, ?_, ?_⟩
  · apply size_le.mp
    have up := lt_mul_div_succ (size key + L - 1) hL
    rw [mul_succ] at up
    calc size key ≤ L * ((size key + L - 1) / L) := by omega
      _ = (size key + L - 1) / L * L := mul_comm ..
      _ ≤ _ := mul_le_mul_right L (le_max_left ..)
  · have hsize := size_le.mpr hkey
    have down := div_mul_le_self (size key + L - 1) L
    rcases Nat.eq_zero_or_pos ((size key + L - 1) / L) with zero | pos
    · rw [zero]
      simpa using hbits
    · rw [Nat.max_eq_left pos, Nat.sub_mul, Nat.one_mul]
      omega

/-- A level over the root changes nothing. -/
theorem lookup_wrap (node : Node V h) (k : Nat) :
    lookup L ⟨some ⟨h + 1, wrap node⟩⟩ k =
      lookup L ⟨some ⟨h, node⟩⟩ k := by
  simp only [lookup]
  by_cases small : k < 2 ^ ((h + 1) * L)
  · have wider :=
      small.trans_le (Nat.pow_le_pow_right Nat.two_pos (Nat.mul_le_mul_right L (Nat.le_succ _)))
    rw [if_pos wider, if_pos small, lookup_inner_mk, (digit_succ_eq_zero wider).mpr small,
      update_self, bind_some]
  · split
    · rename_i wider
      rw [lookup_inner_mk, update_of_ne fun zero => small ((digit_succ_eq_zero wider).mp zero)]
      rfl
    · rfl

theorem grow_spec : ∀ (n : Nat) {h : Nat} {node : Node V h}, Node.Counted L slack h node →
    Node.Roomy L h node → ∃ h' node', grow n ⟨h, node⟩ = ⟨h', node'⟩ ∧ h' = h + n ∧
      Node.Counted L slack h' node' ∧ Node.Roomy L h' node' ∧
      ∀ k, lookup L ⟨some ⟨h', node'⟩⟩ k = lookup L ⟨some ⟨h, node⟩⟩ k := by
  intro n
  induction n with
  | zero => exact fun counted roomy => ⟨_, _, rfl, rfl, counted, roomy, fun _ => rfl⟩
  | succ n ih =>
    intro h node counted roomy
    have one := filled_one 0 (Nat.two_pow_pos L) node
    have wrapped : Node.Counted L slack (h + 1) (wrap node) := by
      apply counted_inner one.le (by omega) Nat.one_pos (by decide)
      apply update_slot
      · nofun
      · rintro _ ⟨⟩
        exact counted
    have room : Node.Roomy L (h + 1) (wrap node) := by
      refine ⟨fun _ => (by decide : 1 < 255), ?_⟩
      apply update_slot
      · nofun
      · rintro _ ⟨⟩
        exact roomy
    obtain ⟨h', node', run, height, counted', roomy', lookups⟩ := ih wrapped room
    exact ⟨h', node', run, by omega, counted', roomy',
      fun k => (lookups k).trans (lookup_wrap node k)⟩

/-- What a changed node has is what the tree has. -/
theorem lookup_root {node node' : Node V h} {new : Option V} (fits : key < 2 ^ ((h + 1) * L))
    (lookups : ∀ k, Node.lookup L k h node' = if low L h k = low L h key then new
    else Node.lookup L k h node)
    (k : Nat) : lookup L ⟨some ⟨h, node'⟩⟩ k = if k = key then new else lookup L
    ⟨some ⟨h, node⟩⟩ k := by
  simp only [lookup]
  by_cases small : k < 2 ^ ((h + 1) * L)
  · rw [if_pos small, if_pos small, lookups k, low_of_lt small, low_of_lt fits]
  · rw [if_neg small, if_neg small, if_neg]
    rintro rfl
    exact small fits

/-- The insertion into a tree that is high enough. -/
theorem insertNode_tree (hk : key < usizeSize) {node : Node V h} (hb : h * L < bits)
    (counted : Node.Counted L slack h node) (roomy : Node.Roomy L h node)
    (fits : key < 2 ^ ((h + 1) * L)) (value : V) :
    ∃ node', insertNode bits L key value h node = some (lookup L ⟨some ⟨h, node⟩⟩ key,
      node') ∧ Counted bits L slack ⟨some ⟨h, node'⟩⟩ ∧
      ∀ k, lookup L ⟨some ⟨h, node'⟩⟩ k = if k = key then some value else lookup L
        ⟨some ⟨h, node⟩⟩ k := by
  obtain ⟨node', run, counted', lookups⟩ := insertNode_spec value hk hb counted roomy
  refine ⟨node', ?_, ?_, lookup_root fits lookups⟩
  · simp only [lookup, if_pos fits, run]
  · rintro _ _ ⟨⟩
    exact ⟨hb, counted'⟩

variable {t : RadixTree V}

section

variable (counted : t.Counted bits L slack) (hk : key < usizeSize)
include counted hk

theorem insert_spec (hL : 0 < L) (hbits : 0 < bits) (hkey : key < 2 ^ bits) (roomy : t.Roomy L)
    (value : V) :
    ∃ t', t.insert bits L key value = some (t.lookup L key, t') ∧ t'.Counted bits L slack ∧
      ∀ k, t'.lookup L k = if k = key then some value else t.lookup L k := by
  obtain ⟨n, height, pos, fits, hn⟩ := keyHeight_spec hL hbits hkey
  obtain ⟨root⟩ := t
  cases root with
  | none =>
    obtain ⟨node, run, counted', lookups⟩ := createSubtree_spec value slack hk hn
    refine ⟨⟨some ⟨n - 1, node⟩⟩, ?_, ?_, ?_⟩
    · simp [insert, height, run, lookup]
    · rintro _ _ ⟨⟩
      exact ⟨hn, counted'⟩
    · intro k
      have levels : n - 1 + 1 = n := by omega
      simp only [lookup, levels]
      by_cases small : k < 2 ^ (n * L)
      · rw [if_pos small, lookups k, low_of_lt (levels.symm ▸ small),
          low_of_lt (levels.symm ▸ fits)]
      · rw [if_neg small, if_neg]
        rintro rfl
        exact small fits
  | some root =>
    obtain ⟨h, node⟩ := root
    obtain ⟨hb, nodes⟩ := counted h node rfl
    have room := roomy h node rfl
    by_cases large : isTooLarge L key (h + 1)
    · have higher : (h + 1) * L < n * L := by
        apply (Nat.pow_lt_pow_iff_right Nat.one_lt_two).mp
        exact (isTooLarge_iff.mp large).trans_lt fits
      have := Nat.lt_of_mul_lt_mul_right higher
      obtain ⟨h', node', run, rfl, counted', roomy', lookups⟩ :=
        grow_spec (n - (h + 1)) nodes room
      have levels : h + (n - (h + 1)) = n - 1 := by omega
      have enough : h + (n - (h + 1)) + 1 = n := by omega
      obtain ⟨node'', run', counted'', lookups'⟩ :=
        insertNode_tree hk (levels ▸ hn) counted' roomy' (enough.symm ▸ fits) value
      refine ⟨_, ?_, counted'', fun k => (lookups' k).trans (by rw [lookups k])⟩
      simp only [insert, large, if_true, height, bind_eq_bind, bind_some, pure_def]
      rw [run]
      simp [run', lookups]
    · have small := not_isTooLarge_iff.mp large
      obtain ⟨node', run, counted', lookups⟩ := insertNode_tree hk hb nodes room small value
      refine ⟨_, ?_, counted', lookups⟩
      simp [insert, large, run]

/-- The removal of a present key. -/
theorem remove_present (le : slack ≤ slack')
    (present : t.lookup L key = some v) (keeps : slack < slack' ∨ t.Shared L key ∨ t.OneLeaf) :
    ∃ t', t.remove bits L key = some (some v, t') ∧ t'.Counted bits L slack' ∧
      ∀ k, t'.lookup L k = if k = key then none else t.lookup L k := by
  obtain ⟨root⟩ := t
  cases root with
  | none => cases present
  | some root =>
    obtain ⟨h, node⟩ := root
    obtain ⟨hb, nodes⟩ := counted h node rfl
    simp only [lookup] at present
    split at present
    · rename_i fits
      have small := not_isTooLarge_iff.mpr fits
      have shared : h = 0 ∨ slack < slack' ∨ Node.Shared L key h node := by
        rcases keeps with more | ⟨k, other, group, found⟩ | ⟨leaf, root⟩
        · exact .inr (.inl more)
        · right; right
          refine ⟨k, other, group, fun none => found ?_⟩
          simp only [lookup]
          split
          · exact none
          · rfl
        · left
          cases root
          rfl
      obtain ⟨node', free, run, freed, kept, lookups⟩ :=
        removeNode_present hk le hb nodes present shared
      refine ⟨⟨if free then none else some ⟨h, node'⟩⟩, ?_, ?_, ?_⟩
      · simp [remove, small, run]
      · cases free with
        | true => nofun
        | false =>
          rintro _ _ ⟨⟩
          exact ⟨hb, kept rfl⟩
      · intro k
        cases free with
        | true =>
          rw [← lookup_root fits lookups k]
          simp [lookup, (freed rfl).2 k]
        | false => exact lookup_root fits lookups k
    · cases present

/-- The removal of a key none of whose neighbours is present. -/
theorem remove_absent (absent : ∀ k, k / 2 ^ L = key / 2 ^ L → t.lookup L k = none) :
    t.remove bits L key = some (none, t) := by
  obtain ⟨root⟩ := t
  cases root with
  | none => rfl
  | some root =>
    obtain ⟨h, node⟩ := root
    obtain ⟨hb, nodes⟩ := counted h node rfl
    by_cases large : isTooLarge L key (h + 1) = true
    · simp [remove, large]
    · have fits := not_isTooLarge_iff.mp large
      have run := removeNode_absent hk hb nodes fun k group => by
        have inside : k < 2 ^ ((h + 1) * L) := by
          rw [Nat.succ_mul, Nat.pow_add, ← Nat.div_lt_iff_lt_mul (Nat.two_pow_pos L)] at fits ⊢
          rwa [group]
        have := absent k group
        simpa only [lookup, if_pos inside] using this
      simp [remove, run]

theorem get_run : t.get bits L key = some (t.lookup L key) := by
  obtain ⟨root⟩ := t
  cases root with
  | none => rfl
  | some root =>
    obtain ⟨h, node⟩ := root
    by_cases large : isTooLarge L key (h + 1) = true
    · have big := isTooLarge_iff.mp large
      simp [get, large, lookup, big]
    · have fits := not_isTooLarge_iff.mp large
      simp [get, large, lookup, fits, getNode_run hk (counted h node rfl).1]

end

theorem Node.Counted.exact : ∀ {h : Nat} {node : Node V h}, Node.Counted L 0 h node →
    Node.Exact L h node
  | 0, _, counted => counted.1
  | _ + 1, _, ⟨⟨low, high, _, _⟩, children⟩ =>
    ⟨le_antisymm high low, fun k next slot => (children k next slot).exact⟩

/-- Nodes that are small enough for the count always have room. -/
theorem Node.Counted.roomy (room : 2 ^ L + slack ≤ 255) : ∀ {h : Nat} {node : Node V h},
    Node.Counted L slack h node → Node.Roomy L h node := by
  intro h
  induction h with
  | zero =>
    rintro node counted free
    have := counted.1
    omega
  | succ h ih =>
    rintro node ⟨⟨low, high, -, -⟩, children⟩
    refine ⟨fun free => ?_, fun k next slot => ih (children k next slot)⟩
    omega

theorem Node.Counted.within : ∀ {h : Nat} {node : Node V h},
    Node.Counted L slack h node → Node.Within L slack' h node → Node.Counted L slack' h node
  | 0, _, counted, _ => counted
  | _ + 1, _, ⟨⟨low, _, pos, small⟩, children⟩, ⟨high, within⟩ =>
    ⟨⟨low, high, pos, small⟩, fun k next slot =>
      (children k next slot).within (within k next slot)⟩

theorem Counted.roomy (room : 2 ^ L + slack ≤ 255) (counted : t.Counted bits L slack) :
    t.Roomy L :=
  fun h node root => (counted h node root).2.roomy room

theorem Counted.within (counted : t.Counted bits L slack) (within : t.Within L slack') :
    t.Counted bits L slack' :=
  fun h node root =>
    ⟨(counted h node root).1, (counted h node root).2.within (within h node root)⟩

section Iteration

/-- What is found depends on the digits up to the node only. -/
theorem lookup_congr : ∀ {h : Nat} {node : Node V h} {k k' : Nat}, low L h k = low L h k' →
    Node.lookup L k h node = Node.lookup L k' h node := by
  intro h
  induction h with
  | zero =>
    rintro (node : Slots V) k k' same
    rw [lookup_leaf, lookup_leaf, ← low_zero, ← low_zero, same]
  | succ h ih =>
    rintro (node : Slots (Node V h)) k k' same
    obtain ⟨first, rest⟩ := low_succ_inj.mp same
    rw [lookup_inner, lookup_inner, first]
    congr 1
    funext next
    exact ih rest

/-- The key of slot `i` that goes on with `r`. -/
theorem slot_key {r : Nat} (hi : i < 2 ^ L) (hr : r < 2 ^ ((h + 1) * L)) :
    digit L (i * 2 ^ ((h + 1) * L) + r) (h + 1) = i ∧ low L h (i * 2 ^ ((h + 1) * L) + r) =
      low L h r ∧ i * 2 ^ ((h + 1) * L) + r < 2 ^ ((h + 2) * L) := by
  refine ⟨?_, ?_, ?_⟩
  · rw [digit_eq, Nat.mul_comm, Nat.mul_add_div (Nat.two_pow_pos _), Nat.div_eq_of_lt hr,
      Nat.add_zero, mod_eq_of_lt hi]
  · rw [low, low, mul_comm, mul_add_mod]
  · calc i * 2 ^ ((h + 1) * L) + r < i * 2 ^ ((h + 1) * L) + 2 ^ ((h + 1) * L) := by omega
      _ = (i + 1) * 2 ^ ((h + 1) * L) := (succ_mul ..).symm
      _ ≤ 2 ^ L * 2 ^ ((h + 1) * L) := mul_le_mul_right _ hi
      _ = 2 ^ ((h + 2) * L) := by rw [← pow_add, succ_mul (h + 1), add_comm]

theorem mem_entries : ∀ {h : Nat} {node : Node V h} {base : Nat},
    (key, v) ∈ Node.entries L h node base ↔
      ∃ r, r < 2 ^ ((h + 1) * L) ∧ key = base + r ∧ Node.lookup L r h node = some v := by
  intro h
  induction h with
  | zero =>
    rintro (node : Slots V) base
    simp only [Node.entries, List.mem_filterMap, List.mem_range, map_eq_some_iff,
      Prod.mk.injEq, zero_add, one_mul, lookup_leaf]
    have whole : ∀ r, r < 2 ^ L → digit L r 0 = r := by
      intro r hr
      rw [digit_eq, Nat.zero_mul, Nat.pow_zero, Nat.div_one, Nat.mod_eq_of_lt hr]
    constructor
    · rintro ⟨i, hi, w, slot, rfl, rfl⟩
      exact ⟨i, hi, rfl, by rw [whole i hi, slot]⟩
    · rintro ⟨r, hr, rfl, found⟩
      exact ⟨r, hr, v, by rw [← whole r hr, found], rfl, rfl⟩
  | succ h ih =>
    rintro (node : Slots (Node V h)) base
    simp only [Node.entries, List.mem_flatMap, List.mem_range]
    constructor
    · rintro ⟨i, hi, found⟩
      cases slot : node.array i with
      | none =>
        rw [slot] at found
        cases found
      | some next =>
        rw [slot] at found
        obtain ⟨r, hr, rfl, below⟩ := ih.mp found
        obtain ⟨first, rest, inside⟩ := slot_key hi hr
        refine ⟨_, inside, add_assoc .., ?_⟩
        rw [lookup_inner, first, slot, bind_some, lookup_congr rest, below]
    · rintro ⟨r, hr, rfl, found⟩
      have split : low L (h + 1) r = low L h r + 2 ^ ((h + 1) * L) * digit L r (h + 1) := low_succ
      rw [low_of_lt hr] at split
      obtain ⟨next, slot, found⟩ := bind_eq_some_iff.mp found
      refine ⟨digit L r (h + 1), digit_lt, ?_⟩
      rw [slot]
      apply ih.mpr
      refine ⟨low L h r, low_lt, ?_, ?_⟩
      · rw [mul_comm]
        omega
      · rw [← found]
        exact lookup_congr (low_of_lt low_lt)

theorem entries_sorted : ∀ {h : Nat} {node : Node V h} {base : Nat},
    (Node.entries L h node base).Pairwise fun a b => a.1 < b.1 := by
  intro h
  induction h with
  | zero =>
    rintro node base
    apply List.Pairwise.filterMap _ _ List.pairwise_lt_range
    simp only [map_eq_some_iff]
    rintro i j less _ ⟨v, -, rfl⟩ _ ⟨w, -, rfl⟩
    exact Nat.add_lt_add_left less base
  | succ h ih =>
    rintro node base
    apply List.pairwise_flatMap.mpr
    constructor
    · intro i _
      split
      · exact ih
      · exact List.Pairwise.nil
    · apply List.pairwise_lt_range.imp
      rintro i j less ⟨k, v⟩ found ⟨k', w⟩ found'
      split at found
      · split at found'
        · obtain ⟨r, hr, rfl, -⟩ := mem_entries.mp found
          obtain ⟨r', -, rfl, -⟩ := mem_entries.mp found'
          have := mul_le_mul_right (2 ^ ((h + 1) * L)) less
          rw [succ_mul] at this
          omega
        · cases found'
      · cases found

theorem mem_iter {t : RadixTree V} : (key, v) ∈ t.iter L ↔ t.lookup L key = some v := by
  obtain ⟨root⟩ := t
  cases root with
  | none => simp [iter, lookup]
  | some root =>
    simp only [iter, lookup, mem_entries, zero_add]
    constructor
    · rintro ⟨r, hr, rfl, found⟩
      rw [if_pos hr, found]
    · intro found
      split at found
      · rename_i hr
        exact ⟨key, hr, rfl, found⟩
      · cases found

theorem iter_keys_nodup (t : RadixTree V) : ((t.iter L).map Prod.fst).Nodup := by
  apply List.Pairwise.map (R := fun a b => a.1 < b.1)
  · exact fun a b less => less.ne
  · unfold iter
    split
    · exact entries_sorted
    · exact List.Pairwise.nil

end Iteration

theorem Counted.exact (counted : t.Counted bits L 0) : t.Exact L :=
  fun h node root => (counted h node root).2.exact

theorem Counted.call (hL : 0 < L) (hbits : 0 < bits) (counted : t.Counted bits L 0)
    {m : Nat → Option V}
    (same : ∀ k, t.lookup L k = m k) {call : Call V} (typed : call.key < 2 ^ bits)
    (meets : call.Meets L t) :
    ∃ t', call.exec bits L t = some ((call.onMap m).1, t') ∧ t'.Counted bits L 0 ∧
      ∀ k, t'.lookup L k = (call.onMap m).2 k := by
  obtain ⟨hk, meets⟩ := meets
  cases call with
  | insert key value =>
    dsimp only [Call.key] at typed hk
    have roomy : t.Roomy L := by
      rcases meets with small | roomy
      · have most := Nat.pow_le_pow_right Nat.two_pos small
        exact counted.roomy (by omega)
      · exact roomy
    obtain ⟨t', run, counted', lookups⟩ := insert_spec counted hk hL hbits typed roomy value
    refine ⟨t', ?_, counted', fun k => ?_⟩
    · rw [Call.exec, run, same]
      rfl
    · rw [lookups k, same k]
      exact (update_apply ..).symm
  | remove key =>
    dsimp only [Call.key] at hk
    rcases meets with ⟨present, keeps⟩ | absent
    · obtain ⟨v, found⟩ := ne_none_iff_exists'.mp present
      obtain ⟨t', run, counted', lookups⟩ := remove_present counted hk le_rfl found (.inr keeps)
      refine ⟨t', ?_, counted', fun k => ?_⟩
      · rw [Call.exec, run, ← found, same]
        rfl
      · rw [lookups k, same k]
        exact (update_apply ..).symm
    · have none_here : m key = none := by rw [← same, absent key rfl]
      refine ⟨t, ?_, counted, fun k => ?_⟩
      · rw [Call.exec, remove_absent counted hk absent]
        simp only [Call.onMap, none_here]
      · rw [same k]
        simp only [Call.onMap, update_apply]
        split
        · rename_i here
          rw [here, none_here]
        · rfl
  | get key =>
    dsimp only [Call.key] at hk
    refine ⟨t, ?_, counted, same⟩
    rw [Call.exec, get_run counted hk, same]
    rfl

theorem isMap_of_counted (hL : 0 < L) (hbits : 0 < bits) (calls : List (Call V)) :
    ∀ {t : RadixTree V} {m : Nat → Option V}, t.Counted bits L 0 →
      (∀ k, t.lookup L k = m k) →
    (∀ call ∈ calls, call.key < 2 ^ bits) → Conforms bits L calls t →
      IsMap bits L calls t m := by
  induction calls with
  | nil => exact fun counted _ _ _ => counted.exact
  | cons call rest ih =>
    intro t m counted same typed conforms
    obtain ⟨t', run, counted', same'⟩ :=
      counted.call hL hbits same (typed call List.mem_cons_self) conforms.1
    exact ⟨counted.exact, t', run, ih counted' same'
      (fun call h => typed call (List.mem_cons_of_mem _ h)) (conforms.2 _ t' run)⟩

/-- Over every sequence of conforming calls the tree is a finite map. -/
theorem radixTree_is_map (hL : 0 < L) (hbits : 0 < bits) (calls : List (Call V))
    (typed : ∀ call ∈ calls, call.key < 2 ^ bits) (conforms : Conforms bits L calls new) :
    IsMap bits L calls new fun _ => none :=
  isMap_of_counted hL hbits calls nofun (fun _ => rfl) typed conforms

/-- Insert a key, remove it and look for it. -/
def roundTrip : List (Call Nat) := [.insert 3 7, .remove 3, .get 3]

theorem radixTree_is_map_three : IsMap 32 4 roundTrip new fun _ => none := by
  apply radixTree_is_map (by decide) (by decide) roundTrip (by decide)
  refine ⟨⟨by decide, .inl (by decide)⟩, ?_⟩
  rintro r t ⟨⟩
  refine ⟨⟨by decide, .inl ⟨nofun, .inr ⟨_, rfl⟩⟩⟩, ?_⟩
  rintro r t ⟨⟩
  refine ⟨⟨by decide, trivial⟩, ?_⟩
  rintro r t ⟨⟩
  trivial

/-- The removal of a key that is absent, from the leaf of another key. -/
def removeNeighbour : List (Call Nat) := [.insert 0 7, .remove 1, .get 0]

theorem not_radixTree_is_map : ¬ ∀ (bits L : Nat) (calls : List (Call Nat)), 0 < L →
    0 < bits →
    (∀ call ∈ calls, call.key < 2 ^ bits) → IsMap bits L calls new fun _ => none := by
  intro all
  obtain ⟨-, t₁, run₁, -, t₂, run₂, -, t₃, run₃, -⟩ :=
    all 32 4 removeNeighbour (by decide) (by decide) (by decide)
  cases run₁
  cases run₂
  cases run₃

end BadgerOS.RadixTree
