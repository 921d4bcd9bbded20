import Mathlib
/-!
# Bytes

A store of bytes by offset, and little endian numbers in it.
-/

namespace Bytes

abbrev Byte := BitVec 8

/-- The number that `n` bytes stand for. -/
def le (m : Nat → Byte) (off : Nat) : Nat → Nat
  | 0 => 0
  | n + 1 => (m off).toNat + 256 * le m (off + 1) n

end Bytes
