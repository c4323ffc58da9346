import Mathlib

/-!
# Records of a datagram

Fields of a fixed width, least byte first, and records that are padded to a multiple of
four bytes.

## Main results

* `readField_field` — a field that is written is read back.
* `drop_padded` — the next record begins where the padding ends.
-/

namespace Petrush.Lib.Wire

abbrev Bytes := List UInt8

/-! ## Fields -/

/-- The value in `width` bytes. -/
def field : Nat → Nat → Bytes
  | 0, _ => []
  | width + 1, value => UInt8.ofNat value :: field width (value / 256)

/-- The value of the first `width` bytes, when there are as many. -/
def readField : Nat → Bytes → Option Nat
  | 0, _ => some 0
  | _ + 1, [] => none
  | width + 1, b :: bytes => (readField width bytes).map fun value => b.toNat + 256 * value

@[simp] theorem length_field (width value : Nat) : (field width value).length = width := by
  induction width generalizing value with
  | zero => rfl
  | succ width ih => rw [field, List.length_cons, ih]

/-- **A field that is written is read back.** -/
theorem readField_field {width value : Nat} (h : value < 256 ^ width) (rest : Bytes) :
    readField width (field width value ++ rest) = some value := by
  induction width generalizing value with
  | zero =>
      rw [Nat.pow_zero, Nat.lt_one_iff] at h
      rw [h]
      rfl
  | succ width ih =>
      have hhigh : value / 256 < 256 ^ width := by
        rw [Nat.div_lt_iff_lt_mul (by decide)]
        rwa [Nat.pow_succ] at h
      rw [field, List.cons_append, readField, ih hhigh, Option.map_some, UInt8.toNat_ofNat']
      exact congrArg some (Nat.mod_add_div value 256)

theorem readField_isSome {width : Nat} {bytes : Bytes} (h : width ≤ bytes.length) :
    ∃ value, readField width bytes = some value := by
  induction width generalizing bytes with
  | zero => exact ⟨0, rfl⟩
  | succ width ih =>
      cases bytes with
      | nil => exact absurd h (Nat.not_succ_le_zero width)
      | cons b bytes =>
          obtain ⟨value, hvalue⟩ := ih (Nat.le_of_succ_le_succ h)
          exact ⟨_, by rw [readField, hvalue]; rfl⟩

theorem readField_lt {width value : Nat} {bytes : Bytes} (h : readField width bytes = some value) :
    value < 256 ^ width := by
  induction width generalizing bytes value with
  | zero =>
      rw [← Option.some.inj h]
      exact Nat.one_pos
  | succ width ih =>
      cases bytes with
      | nil => contradiction
      | cons b bytes =>
          obtain ⟨high, hhigh, rfl⟩ := Option.map_eq_some_iff.mp h
          have hb := b.toNat_lt
          have hlt := ih hhigh
          rw [Nat.pow_succ]
          omega

/-! ## Padding -/

/-- The next multiple of four. -/
def align (n : Nat) : Nat := (n + 3) / 4 * 4

theorem le_align (n : Nat) : n ≤ align n := by
  unfold align
  omega

theorem align_lt (n : Nat) : align n < n + 4 := by
  unfold align
  omega

/-- Up to a multiple of four, there is room for the padding. -/
theorem align_le {n m : Nat} (h : n ≤ m) (hm : m % 4 = 0) : align n ≤ m := by
  unfold align
  omega

@[simp] theorem align_mod (n : Nat) : align n % 4 = 0 := by
  unfold align
  omega

/-- A record with its padding. -/
def padded (record : Bytes) : Bytes :=
  record ++ List.replicate (align record.length - record.length) 0

@[simp] theorem length_padded (record : Bytes) : (padded record).length = align record.length := by
  rw [padded, List.length_append, List.length_replicate,
    Nat.add_sub_cancel' (le_align record.length)]

/-- **The next record begins where the padding ends.** -/
theorem drop_padded (record rest : Bytes) :
    (padded record ++ rest).drop (align record.length) = rest := by
  rw [← length_padded, List.drop_left]

end Petrush.Lib.Wire
