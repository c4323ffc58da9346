import Mathlib

/-!
# Reflected cyclic redundancy checks

A register of `w` bits whose lowest bit is the highest coefficient.  The divisor is
`X ^ w` plus what `poly` stands for.  The bits of a message come one at a time, those
of a byte from the lowest on; `shift` is the step when the message has been added to the
register beforehand.

## Main results

* `toPoly_feedAll` — the register after a message is the remainder of a division.
* `feedAll_word` — a word added beforehand, and as many shifts.
* `update_table` — a byte at a time, with a table of what eight shifts do to a byte.
-/

namespace Petrush.Lib.Crc

open Polynomial

variable {w : Nat} (poly : BitVec w)

/-! ## The register -/

/-- One place down; a one that falls out brings the divisor in. -/
def shift (r : BitVec w) : BitVec w :=
  if r.getLsbD 0 then (r >>> 1) ^^^ poly else r >>> 1

/-- `n` places down. -/
def shifts : Nat → BitVec w → BitVec w
  | 0, r => r
  | n + 1, r => shifts n (shift poly r)

/-- One bit of the message. -/
def feed (r : BitVec w) (b : Bool) : BitVec w :=
  if r.getLsbD 0 ^^ b then (r >>> 1) ^^^ poly else r >>> 1

/-- A message, bit by bit. -/
def feedAll (r : BitVec w) (message : List Bool) : BitVec w := message.foldl (feed poly) r

/-- The bits of a byte, the lowest first. -/
def bitsOf (b : BitVec 8) : List Bool := (List.range 8).map b.getLsbD

/-- The bits of a string of bytes. -/
def bits (bytes : List (BitVec 8)) : List Bool := bytes.flatMap bitsOf

theorem feedAll_append (r : BitVec w) (a b : List Bool) :
    feedAll poly r (a ++ b) = feedAll poly (feedAll poly r a) b := List.foldl_append

/-! ## Linearity -/

/-- What a bit that falls out brings in. -/
theorem shift_eq (r : BitVec w) :
    shift poly r = (r >>> 1) ^^^ (if r.getLsbD 0 then poly else 0#w) := by
  unfold shift
  split <;> simp

theorem feed_eq (r : BitVec w) (b : Bool) :
    feed poly r b = (r >>> 1) ^^^ (if r.getLsbD 0 ^^ b then poly else 0#w) := by
  unfold feed
  split <;> simp

theorem ite_xor (a b : Bool) :
    (if a ^^ b then poly else 0#w) = (if a then poly else 0#w) ^^^ (if b then poly else 0#w) := by
  cases a <;> cases b <;> simp

theorem shift_xor (x y : BitVec w) : shift poly (x ^^^ y) = shift poly x ^^^ shift poly y := by
  simp only [shift_eq, BitVec.ushiftRight_xor_distrib, BitVec.getLsbD_xor, ite_xor]
  ac_rfl

theorem shifts_xor (n : Nat) : ∀ x y : BitVec w,
    shifts poly n (x ^^^ y) = shifts poly n x ^^^ shifts poly n y := by
  induction n with
  | zero =>
      intro x y
      rfl
  | succ n ih =>
      intro x y
      rw [shifts, shift_xor, ih]
      rfl

/-- Zeros only fall out. -/
theorem shifts_of_low {n : Nat} : ∀ {x : BitVec w}, (∀ i < n, x.getLsbD i = false) →
    shifts poly n x = x >>> n := by
  induction n with
  | zero =>
      intro x _
      simp [shifts]
  | succ n ih =>
      intro x hx
      have hstep : shift poly x = x >>> 1 := by
        rw [shift, hx 0 (Nat.succ_pos n)]
        rfl
      have hrest : ∀ i < n, (x >>> 1).getLsbD i = false := by
        intro i hi
        rw [BitVec.getLsbD_ushiftRight]
        exact hx (1 + i) (by omega)
      rw [shifts, hstep, ih hrest, ← BitVec.shiftRight_add, Nat.add_comm]

/-! ## A word at a time -/

/-- **A word of `n` bits added to the register beforehand**, and `n` shifts. -/
theorem feedAll_word {n : Nat} : ∀ (r x : BitVec w), (∀ i, n ≤ i → x.getLsbD i = false) →
    feedAll poly r ((List.range n).map x.getLsbD) = shifts poly n (r ^^^ x) := by
  induction n with
  | zero =>
      intro r x hx
      have hzero : x = 0#w := by
        apply BitVec.eq_of_getLsbD_eq
        intro i _
        rw [hx i (Nat.zero_le i), BitVec.getLsbD_zero]
      simp [hzero, feedAll, shifts]
  | succ n ih =>
      intro r x hx
      have hstep : shift poly (r ^^^ x) = feed poly r (x.getLsbD 0) ^^^ (x >>> 1) := by
        rw [shift_eq, feed_eq, BitVec.getLsbD_xor, BitVec.ushiftRight_xor_distrib]
        ac_rfl
      have hbits : (List.range (n + 1)).map x.getLsbD =
          x.getLsbD 0 :: (List.range n).map (x >>> 1).getLsbD := by
        rw [List.range_succ_eq_map, List.map_cons, List.map_map]
        congr 1
        apply List.map_congr_left
        intro i _
        simp [Nat.add_comm]
      have hrest : ∀ i, n ≤ i → (x >>> 1).getLsbD i = false := by
        intro i hi
        rw [BitVec.getLsbD_ushiftRight]
        exact hx (1 + i) (by omega)
      rw [hbits, shifts, hstep, ← ih _ _ hrest]
      rfl

/-- A byte, in eight shifts. -/
def update (r : BitVec w) (b : BitVec 8) : BitVec w := shifts poly 8 (r ^^^ b.setWidth w)

theorem feedAll_bitsOf (hw : 8 ≤ w) (r : BitVec w) (b : BitVec 8) :
    feedAll poly r (bitsOf b) = update poly r b := by
  have hbits : bitsOf b = (List.range 8).map (b.setWidth w).getLsbD := by
    apply List.map_congr_left
    intro i hi
    have hlt : i < w := Nat.lt_of_lt_of_le (List.mem_range.mp hi) hw
    simp [hlt]
  rw [hbits, feedAll_word, update]
  intro i hi
  rw [BitVec.getLsbD_setWidth, BitVec.getLsbD_of_ge b i hi, Bool.and_false]

theorem feedAll_bits (hw : 8 ≤ w) (bytes : List (BitVec 8)) : ∀ r : BitVec w,
    feedAll poly r (bits bytes) = bytes.foldl (update poly) r := by
  induction bytes with
  | nil =>
      intro r
      rfl
  | cons b bytes ih =>
      intro r
      rw [bits, List.flatMap_cons, feedAll_append, feedAll_bitsOf poly hw, List.foldl_cons, ← ih]
      rfl

/-- The low byte of a word, and the rest of it. -/
theorem low_xor_high (y : BitVec w) : (y.setWidth 8).setWidth w ^^^ (y >>> 8 <<< 8) = y := by
  apply BitVec.eq_of_getLsbD_eq
  intro i hi
  simp only [BitVec.getLsbD_xor, BitVec.getLsbD_setWidth, BitVec.getLsbD_shiftLeft,
    BitVec.getLsbD_ushiftRight, hi]
  by_cases hlow : i < 8
  · simp [hlow]
  · have hsum : 8 + (i - 8) = i := by omega
    simp [hlow, hsum]

/-- **With a table**: what eight shifts do to the low byte, and the rest of the register
one byte down. -/
theorem update_table (hw : 8 ≤ w) (r : BitVec w) (b : BitVec 8) :
    update poly r b = (r >>> 8) ^^^ shifts poly 8 ((r.setWidth 8 ^^^ b).setWidth w) := by
  have hlow : (r ^^^ b.setWidth w).setWidth 8 = r.setWidth 8 ^^^ b := by
    apply BitVec.eq_of_getLsbD_eq
    intro i hi
    have hlt : i < w := Nat.lt_of_lt_of_le hi hw
    simp [hi, hlt]
  have hhigh : (r ^^^ b.setWidth w) >>> 8 <<< 8 >>> 8 = r >>> 8 := by
    apply BitVec.eq_of_getLsbD_eq
    intro i _
    by_cases hlt : 8 + i < w
    · simp [hlt]
    · simp [hlt, BitVec.getLsbD_of_ge r _ (Nat.le_of_not_lt hlt)]
  have hzeros : ∀ i < 8, ((r ^^^ b.setWidth w) >>> 8 <<< 8).getLsbD i = false := by
    intro i hi
    simp [hi]
  rw [update, ← low_xor_high (r ^^^ b.setWidth w), shifts_xor, hlow, shifts_of_low poly hzeros,
    hhigh, BitVec.xor_comm]

/-! ## Division -/

/-- A bit as a coefficient. -/
def coeffOf (b : Bool) : ZMod 2 := if b then 1 else 0

theorem coeffOf_xor (a b : Bool) : coeffOf (a ^^ b) = coeffOf a + coeffOf b := by
  cases a <;> cases b <;> decide

/-- The polynomial a register stands for. -/
noncomputable def toPoly (r : BitVec w) : (ZMod 2)[X] :=
  ofFn w fun i => coeffOf (r.getMsbD i)

theorem coeff_toPoly (r : BitVec w) (k : Nat) : (toPoly r).coeff k = coeffOf (r.getMsbD k) := by
  by_cases hk : k < w
  · rw [toPoly, ofFn_coeff_eq_val_of_lt _ hk]
  · have hge : w ≤ k := Nat.le_of_not_lt hk
    rw [toPoly, ofFn_coeff_eq_zero_of_ge _ hge, BitVec.getMsbD_of_ge r k hge]
    rfl

/-- The divisor. -/
noncomputable def divisor : (ZMod 2)[X] := X ^ w + toPoly poly

/-- The polynomial of a message: its first bit is the highest coefficient. -/
noncomputable def message : List Bool → (ZMod 2)[X]
  | [] => 0
  | b :: bs => C (coeffOf b) * X ^ bs.length + message bs

theorem degree_toPoly_lt (r : BitVec w) : (toPoly r).degree < w := ofFn_degree_lt _

theorem divisor_monic : (divisor poly).Monic :=
  monic_X_pow_add (degree_toPoly_lt poly)

theorem degree_divisor : (divisor poly).degree = w := by
  have hlt : (toPoly poly).degree < ((X : (ZMod 2)[X]) ^ w).degree := by
    rw [degree_X_pow]
    exact degree_toPoly_lt poly
  rw [divisor, degree_add_eq_left_of_degree_lt hlt, degree_X_pow]

/-- **One bit**: the register is multiplied by `X`, the bit comes in above it, and the
divisor is taken off when the highest coefficient is one. -/
theorem toPoly_feed (r : BitVec w) (b : Bool) :
    toPoly (feed poly r b) =
      X * toPoly r + C (coeffOf b) * X ^ w - C (coeffOf (r.getLsbD 0 ^^ b)) * divisor poly := by
  ext k
  have hpoly : coeffOf ((if r.getLsbD 0 ^^ b then poly else 0#w).getMsbD k) =
      coeffOf (r.getLsbD 0 ^^ b) * coeffOf (poly.getMsbD k) := by
    cases r.getLsbD 0 ^^ b <;> simp [coeffOf]
  have hshift : coeffOf ((r >>> 1).getMsbD k) + (if k = w then coeffOf (r.getLsbD 0) else 0) =
      (X * toPoly r).coeff k := by
    cases k with
    | zero =>
        rw [coeff_X_mul_zero]
        cases w with
        | zero => simp [coeffOf]
        | succ w => simp [coeffOf]
    | succ k =>
        rw [coeff_X_mul, coeff_toPoly, BitVec.getMsbD_ushiftRight]
        rcases Nat.lt_trichotomy (k + 1) w with hk | hk | hk
        · simp [hk, hk.ne, coeffOf]
        · subst hk
          simp [coeffOf, BitVec.getMsbD]
        · have hge : w ≤ k := Nat.le_of_lt_succ hk
          simp [hk.ne', Nat.not_lt.mpr hk.le, BitVec.getMsbD_of_ge r k hge, coeffOf]
  rw [feed_eq, coeff_toPoly, BitVec.getMsbD_xor, coeffOf_xor, hpoly, coeff_sub, coeff_add, ← hshift,
    divisor, coeff_C_mul, coeff_C_mul, coeff_add, coeff_toPoly, coeff_X_pow, coeffOf_xor]
  have htwo : ∀ c : ZMod 2, c + c = 0 := CharTwo.add_self_eq_zero
  generalize coeffOf (r.getLsbD 0) = t
  generalize coeffOf b = b
  generalize coeffOf (poly.getMsbD k) = p
  generalize coeffOf ((r >>> 1).getMsbD k) = s
  by_cases hk : k = w
  · simp only [hk, if_true]
    revert t b p s
    decide
  · simp only [if_neg hk]
    revert t b p s
    decide

theorem toPoly_feedAll_add (bs : List Bool) : ∀ r : BitVec w, ∃ q,
    toPoly (feedAll poly r bs) + divisor poly * q =
      toPoly r * X ^ bs.length + message bs * X ^ w := by
  induction bs with
  | nil =>
      intro r
      exact ⟨0, by simp [feedAll, message]⟩
  | cons b bs ih =>
      intro r
      obtain ⟨q, hq⟩ := ih (feed poly r b)
      refine ⟨q + C (coeffOf (r.getLsbD 0 ^^ b)) * X ^ bs.length, ?_⟩
      have hall : feedAll poly r (b :: bs) = feedAll poly (feed poly r b) bs := rfl
      rw [hall, mul_add, ← add_assoc, hq, toPoly_feed, message, List.length_cons]
      ring

/-- **The register after a message** is the remainder of what it was, moved up by the
length of the message, and the message, moved up by its own width. -/
theorem toPoly_feedAll (r : BitVec w) (bs : List Bool) :
    toPoly (feedAll poly r bs) =
      (toPoly r * X ^ bs.length + message bs * X ^ w) %ₘ divisor poly := by
  obtain ⟨q, hq⟩ := toPoly_feedAll_add poly bs r
  refine (div_modByMonic_unique q _ (divisor_monic poly) ⟨hq, ?_⟩).2.symm
  rw [degree_divisor]
  exact degree_toPoly_lt _

end Petrush.Lib.Crc
