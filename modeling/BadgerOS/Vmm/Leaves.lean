import BadgerOS.Vmm.Mapping

/-!
# Leaves and what is read of them

`PhysMap::protect`, the teardown of the tables, and the entries of x86_64. Both
architectures have entries that are written as a leaf and read as something else.
-/

namespace BadgerOS.PageTable

open Fallible

/-! ### The entries of x86_64 -/

def bit (b : Bool) (i : Nat) : Nat := if b then 2 ^ i else 0

/-- `flags::RWX`. -/
def rwxFlags : Nat := 0b1110

/-- `PTE_NX` and `PTE_G` are what the machine has. `A` and `D` are one bit, and `U` is in no leaf.
-/
def x86 (nx g : Bool) : Arch where
  packPte pte :=
    let has := pte.flags.testBit
    pte.ppn <<< 12 % usizeSize ||| bit pte.valid 0 |||
      if pte.leaf then
        bit (0 < pte.level) 7 ||| bit (g && has 5) 8 ||| bit (nx && !has 3) 63 ||| bit
          (has 2) 1 ||| bit (has 6) 5 |||
          bit (has 7) 5 ||| bit (has 8) 9 ||| bit (has 10) 4 ||| bit (!has 10 && has 11) 3
      else bit true 1 ||| bit true 2
  unpackPte raw level :=
    let has := raw.testBit
    let leaf := level = 0 || has 7
    { ppn := (raw &&& 0x0007_ffff_ffff_f000) >>> 12
      flags :=
        if leaf then
          bit true 1 ||| bit (g && has 8) 5 ||| bit (!nx || !has 63) 3 ||| bit (has 1) 2 ||| bit
            (has 5) 6 |||
            bit (has 5) 7 ||| bit (has 9) 8 ||| bit (has 4) 10 ||| bit (!has 4 && has 3) 11
        else 0
      level := level
      valid := has 0
      leaf := leaf }

/-! ### Operations on leaves -/

section

variable (k : Machine)

/-- The loop of `protect`, which rewrites the leaf at whatever level it is. -/
def protectLoop (root maxProt : Nat) : Nat → Nat → Fallible Mem Errno Unit
  | 0, _ => pure ()
  | pages + 1, vaddr => do
    let m ← get
    let pte ← lift (walk k m root vaddr)
    let newfl := pte.flags &&& (maxProt ||| (2 ^ 32 - 1 - rwxFlags))
    if newfl ≠ pte.flags then
      expect (mapRawImpl k root vaddr (some { pte with flags := newfl }) pte.level)
    let vaddr ← lift (usizeAdd vaddr pageSize)
    protectLoop root maxProt pages vaddr

def protect (root vaddr size maxProt : Nat) : Fallible Mem Errno Unit := do
  lift (debugAssert (size % pageSize = 0))
  protectLoop k root maxProt (size / pageSize) vaddr

/-- What `drop_impl` does with one entry. -/
def dropEntry (level table i : Nat) (below : Nat → Fallible Mem Errno Unit) :
    Fallible Mem Errno Unit := do
  let raw ← readPte table i
  let pte := k.arch.unpackPte raw level
  if pte.valid = false then pure ()
  else if pte.leaf then cleanupPte k pte
  else below (pte.ppn * pageSize)

def dropImpl : Nat → List Nat → Nat → Fallible Mem Errno Unit
  | level, entries, table => do
    forEach (fun i => dropEntry k level table i (match level with
      -- `assert!(level > 0)`
      | 0 => fun _ => lift none
      | level + 1 => dropImpl level (List.range ptePerPage))) entries
    modify fun m => { m with used := m.used.erase table }

/-- Only the lower half. -/
def drop (root : Nat) : Fallible Mem Errno Unit :=
  dropImpl k (k.pagingLevels - 1) (List.range (ptePerPage / 2)) root

end

/-! ### Round trips -/

/-- What an entry is read as. -/
def Arch.reread (arch : Arch) (e : PTE) : PTE := arch.unpackPte (arch.packPte e) e.level

/-- A leaf for the page, with the permissions and the user, accessed and dirty flags. -/
structure Reads (arch : Arch) (e : PTE) : Prop where
  valid : (arch.reread e).valid = true
  leaf : (arch.reread e).leaf = true
  ppn : (arch.reread e).ppn = e.ppn
  flags : ∀ f ∈ [1, 2, 3, 4, 6, 7], (arch.reread e).flags.testBit f = e.flags.testBit f

/-- No walk and no teardown goes on behind it. -/
structure Kept (arch : Arch) (e : PTE) : Prop extends Reads arch e where
  walks (k : Machine) (m : Mem) (vaddr table : Nat) : k.arch = arch →
    m.tables table (getVpnIndex vaddr e.level) = arch.packPte e →
    walkFrom k m vaddr 0 e.level table = some (arch.reread e)
  drops (k : Machine) (m : Mem) (table i : Nat) (below : Nat → Fallible Mem Errno Unit) :
    k.arch = arch →
    m.tables table i = arch.packPte e → dropEntry k e.level table i below m = cleanupPte k
      (arch.reread e) m

theorem Reads.kept {arch : Arch} {e : PTE} (h : Reads arch e) : Kept arch e := by
  have valid := h.valid
  have leaf := h.leaf
  refine ⟨h, ?_, ?_⟩
  all_goals unfold Arch.reread at *
  · intro k m vaddr table same here
    unfold walkFrom
    simp [same, here, valid, leaf]
  · rintro k m table i below rfl here
    change (if _ = false then _ else if _ = true then _ else _ : Fallible Mem Errno Unit) m = _
    rw [here, if_neg (by simp [valid]), if_pos leaf]

@[simp] theorem testBit_bit (b : Bool) (i j : Nat) :
    (bit b i).testBit j = (b && decide (i = j)) := by
  cases b with
  | false => exact Nat.zero_testBit j
  | true => exact Nat.testBit_two_pow

theorem and_low {raw c : Nat} (low : c < 1024) : raw &&& c = raw % 1024 &&& c := by
  have mod := Nat.and_mod_two_pow (a := raw) (b := c) (n := 10)
  rwa [Nat.mod_eq_of_lt low, Nat.mod_eq_of_lt (Nat.lt_of_le_of_lt Nat.and_le_right low)] at mod

theorem testBit_low {raw f : Nat} (low : f < 10) : raw.testBit f = (raw % 1024).testBit f := by
  rw [show 1024 = 2 ^ 10 from rfl, Nat.testBit_mod_two_pow, decide_eq_true low, Bool.true_and]

/-- A page that the mask leaves, readable, not for user space, accessed if and only if dirty, and
executable if the
machine cannot forbid it. -/
def Encodable (nx : Bool) (e : PTE) : Prop :=
  e.ppn < 2 ^ 39 ∧ e.flags.testBit 1 = true ∧ e.flags.testBit 4 = false ∧
    e.flags.testBit 6 = e.flags.testBit 7 ∧ (nx = true ∨ e.flags.testBit 3 = true)

section

variable {e : PTE} (valid : e.valid = true)
include valid

/-- On riscv64 a leaf has some permission. -/
theorem reads_riscv_iff (page : e.ppn < 2 ^ 52) : Reads riscv e ↔ e.flags &&& rwxFlags ≠ 0 := by
  have every : ∀ x < 1024, (x &&& 0b11_1111_1110) + 1 < 1024 ∧
    (x &&& 0b11_1111_1110) + 1 &&& 1 = 1 ∧
      ((x &&& 0b11_1111_1110) + 1 &&& 0b1110 ≠ 0 ↔ x &&& 0b1110 ≠ 0) ∧
      ∀ f ∈ [1, 2, 3, 4, 6, 7], ((x &&& 0b11_1111_1110) + 1 &&& 0b11_1111_1110).testBit
          f = x.testBit f := by
    decide +kernel
  obtain ⟨less, one, perms, same⟩ := every (e.flags % 1024) (Nat.mod_lt _ (by decide))
  rw [← and_low (by decide)] at less one perms same
  have packed : riscv.packPte e = 1024 * e.ppn + ((e.flags &&& 0b11_1111_1110) + 1) := by
    change e.ppn <<< 10 % usizeSize + (e.flags &&& 0b11_1111_1110) + e.valid.toNat = _
    rw [valid, Nat.shiftLeft_eq, Nat.mod_eq_of_lt (by simp only [usizeSize]; omega),
      Bool.toNat_true]
    omega
  have rest : riscv.packPte e % 1024 = (e.flags &&& 0b11_1111_1110) + 1 := by
    rw [packed, Nat.mul_add_mod, Nat.mod_eq_of_lt less]
  have leaf_iff : (riscv.reread e).leaf = true ↔ e.flags &&& rwxFlags ≠ 0 := by
    change (riscv.packPte e &&& 0b1110 != 0) = true ↔ e.flags &&& 0b1110 ≠ 0
    rw [bne_iff_ne, and_low (by decide), rest, perms, ← and_low (by decide)]
  constructor
  · exact fun kept => leaf_iff.mp kept.leaf
  · intro some
    refine ⟨?_, leaf_iff.mpr some, ?_, ?_⟩
    · change (riscv.packPte e &&& 1 != 0) = true
      rw [bne_iff_ne, and_low (by decide), rest, one]
      decide
    · change riscv.packPte e >>> 10 % 2 ^ 57 = e.ppn
      rw [packed, Nat.shiftRight_eq_div_pow]
      omega
    · intro f mem
      have small : f < 10 := by
        simp only [List.mem_cons, List.not_mem_nil, or_false] at mem
        omega
      have flag := same f mem
      rw [← testBit_low small] at flag
      rw [← flag]
      change (_ + (riscv.packPte e >>> 61 &&& 0b11) <<< 10).testBit f = _
      rw [testBit_low small, Nat.shiftLeft_eq, and_low (by decide), rest,
        Nat.add_mul_mod_self_right, ← testBit_low small]

theorem reads_x86_iff (leaf : e.leaf = true) (nx g : Bool) : Reads (x86 nx g) e ↔
    Encodable nx e := by
  generalize packed : (x86 nx g).packPte e = raw
  have bits (j : Nat) := congrArg (Nat.testBit · j) packed.symm
  simp only [x86, valid, leaf, if_true, Nat.testBit_or, testBit_bit, Bool.true_and,
    show usizeSize = 2 ^ 64 from rfl, Nat.testBit_mod_two_pow, Nat.testBit_shiftLeft] at bits
  have ppn : ((x86 nx g).unpackPte raw e.level).ppn = raw >>> 12 % 2 ^ 39 := by
    change (raw &&& 0x0007_ffff_ffff_f000) >>> 12 = _
    rw [Nat.shiftRight_and_distrib, show 0x0007_ffff_ffff_f000 >>> 12 = 2 ^ 39 - 1 from rfl,
      Nat.and_two_pow_sub_one_eq_mod]
  have isLeaf : ((x86 nx g).unpackPte raw e.level).leaf = true := by
    simp [x86, bits]
    omega
  have flags (page : e.ppn < 2 ^ 39) : (∀ f ∈ [1, 2, 3, 4, 6, 7],
      ((x86 nx g).unpackPte raw e.level).flags.testBit f = e.flags.testBit f) ↔
        e.flags.testBit 1 = true ∧
      e.flags.testBit 4 = false ∧ e.flags.testBit 6 = e.flags.testBit 7 ∧
          (nx = true ∨ e.flags.testBit 3 = true) := by
    have top : e.ppn.testBit 51 = false := Nat.testBit_lt_two_pow (Nat.lt_trans page (by decide))
    have all : ((x86 nx g).unpackPte raw e.level).flags = _ := if_pos isLeaf
    simp [all, bits, top]
    grind
  have read : (x86 nx g).reread e = (x86 nx g).unpackPte raw e.level := by rw [Arch.reread, packed]
  constructor
  · rintro ⟨-, -, same, kept⟩
    rw [read] at same kept
    have page : e.ppn < 2 ^ 39 := by
      rw [← same, ppn]
      exact Nat.mod_lt _ (by decide)
    exact ⟨page, (flags page).mp kept⟩
  · rintro ⟨page, rest⟩
    constructor <;> rw [read]
    · exact (bits 0).trans (by simp)
    · exact isLeaf
    · rw [ppn]
      apply Nat.eq_of_testBit_eq
      intro j
      rw [Nat.testBit_mod_two_pow, Nat.testBit_shiftRight, bits]
      by_cases inside : j < 39
      · simp [inside]
        grind
      · have less : e.ppn < 2 ^ j :=
          Nat.lt_of_lt_of_le page (Nat.pow_le_pow_right (by decide) (Nat.not_lt.mp inside))
        simp [inside, Nat.testBit_lt_two_pow less]
    · exact (flags page).mpr rest

/-- A leaf stays one on both machines if and only if x86_64 can encode it. -/
theorem leaf_kept_iff (leaf : e.leaf = true) (page : e.ppn < 2 ^ 52) (nx g : Bool) :
    Kept riscv e ∧ Kept (x86 nx g) e ↔ Encodable nx e := by
  refine ⟨fun h => (reads_x86_iff valid leaf nx g).mp h.2.toReads, fun h => ?_⟩
  refine ⟨((reads_riscv_iff valid page).mpr fun none => ?_).kept,
    ((reads_x86_iff valid leaf nx g).mpr h).kept⟩
  have read := congrArg (Nat.testBit · 1) none
  simp only [Nat.testBit_and, h.2.1, rwxFlags] at read
  exact absurd read (by decide)

end

theorem leaf_kept_kernel : ∃ e : PTE, Kept riscv e ∧ Kept (x86 true true) e :=
  ⟨⟨0x8_0005, 0b1110, 0, true, true⟩, (leaf_kept_iff rfl rfl (by decide) true true).mpr
    (by unfold Encodable; decide)⟩

/-- A page that is mapped, and loses all its permissions. -/
def guarded : Fallible Mem Errno Nat := do
  let root ← new sv39
  map sv39 root 0x1000 0x8000_5000 0b101_0010
  protect sv39 root 0x1000 0x1000 0
  pure root

/-- The page is taken for a table and the teardown panics; and no page that a fault maps for user
space is encoded. -/
theorem not_leaf_kept : (∃ root m, guarded blank = some (.ok root, m) ∧
      m.tables 0x8000_2000 1 = riscv.packPte ⟨0x8_0005, 0b101_0000, 0, true, true⟩ ∧
        drop sv39 root m = none) ∧
    ¬ Kept riscv ⟨0x8_0005, 0b101_0000, 0, true, true⟩ ∧
      ¬ Kept (x86 true true) ⟨0x8_0005, 0b1101_0110, 0, true, true⟩ := by
  refine ⟨?_, ?_, ?_⟩
  · have ran : (guarded blank).map (fun r => r.1.toOption.map fun root =>
        (r.2.tables 0x8000_2000 1, (drop sv39 root r.2).isNone)) =
        some (some (riscv.packPte ⟨0x8_0005, 0b101_0000, 0, true, true⟩, true)) := by
          decide +kernel
    obtain ⟨⟨result, m⟩, run, facts⟩ := Option.map_eq_some_iff.mp ran
    cases result with
    | error e => cases facts
    | ok root =>
      simp only [Except.toOption, Option.map_some, Option.some.injEq, Prod.mk.injEq,
        Option.isNone_iff_eq_none] at facts
      exact ⟨root, m, run, facts⟩
  · exact fun kept => absurd ((reads_riscv_iff rfl (by decide)).mp kept.toReads) (by decide)
  · exact fun kept => absurd ((reads_x86_iff rfl rfl true true).mp
      kept.toReads) (by unfold Encodable; decide)

end BadgerOS.PageTable
