import Petrush.Asm.Crc32
import Petrush.Lib.Crc

/-!
# The CRC-32 routine

The table holds what eight shifts do to each byte, so a turn of the loop is a byte of the
bit-by-bit update, and a run of it the remainder of a division.

## Main results

* `crcTable_get` — the 256 words of the table.
* `crc32_update` — the routine, for every start value and every string.
-/

namespace Petrush.Verified.Checksums

open Petrush.Asm.Crc32
open Petrush.Lib.Crc
open Polynomial

/-- The divisor without its highest coefficient, reflected. -/
def polynomial : BitVec 32 := 0xEDB88320#32

/-- **The table.** -/
theorem crcTable_get (i : BitVec 8) :
    crcTable.get i.toFin = shifts polynomial 8 (i.setWidth 32) := by
  have htable : ∀ i : Fin 256,
      crcTable.get i = shifts polynomial 8 ((BitVec.ofFin (w := 8) i).setWidth 32) := by
    decide +kernel
  exact htable i.toFin

/-- A turn of the loop is a byte. -/
theorem loop_cons (eax : BitVec 32) (byte : BitVec 8) (rest : List (BitVec 8)) :
    loop eax (byte :: rest) = loop (update polynomial eax byte) rest := by
  have hbyte : (byte.zeroExtend 32).truncate 8 = byte := by
    apply BitVec.eq_of_getLsbD_eq
    intro i hi
    simp [hi]
  rw [loop, hbyte, crcTable_get, update_table polynomial (by decide)]

theorem loop_eq (bytes : List (BitVec 8)) : ∀ eax : BitVec 32,
    loop eax bytes = feedAll polynomial eax (bits bytes) := by
  induction bytes with
  | nil =>
      intro eax
      rfl
  | cons byte rest ih =>
      intro eax
      rw [loop_cons, ih, feedAll_bits polynomial (by decide), feedAll_bits polynomial (by decide),
        List.foldl_cons]

theorem petrushCrc32_eq (crc : BitVec 32) (buf : List (BitVec 8)) :
    petrushCrc32 crc buf = feedAll polynomial crc (bits buf) := by
  rw [petrushCrc32]
  split
  next hempty =>
    subst hempty
    rfl
  next => exact loop_eq buf crc

/-- **The update.**  For every start value and all strings of bytes: the routine feeds the
bits of the string to the register one by one; the register is then the remainder of the
division; and a second string goes on where the first ended. -/
theorem crc32_update (crc : BitVec 32) (a b : List (BitVec 8)) :
    petrushCrc32 crc a = feedAll polynomial crc (bits a) ∧
    toPoly (petrushCrc32 crc a) =
      (toPoly crc * X ^ (bits a).length + message (bits a) * X ^ 32) %ₘ divisor polynomial ∧
    petrushCrc32 (petrushCrc32 crc a) b = petrushCrc32 crc (a ++ b) := by
  refine ⟨petrushCrc32_eq crc a, ?_, ?_⟩
  · rw [petrushCrc32_eq]
    exact toPoly_feedAll polynomial crc (bits a)
  · have hbits : bits (a ++ b) = bits a ++ bits b := List.flatMap_append
    rw [petrushCrc32_eq, petrushCrc32_eq, petrushCrc32_eq, hbits, feedAll_append]

/-- The check value of `123456789`. -/
example : ~~~ petrushCrc32 (~~~ 0#32) ((List.range 9).map fun i => BitVec.ofNat 8 (49 + i)) =
    0xCBF43926#32 := by
  decide +kernel

end Petrush.Verified.Checksums
