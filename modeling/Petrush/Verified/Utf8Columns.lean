import Petrush.Asm.Utf8Width
import Petrush.Lib.Utf8

/-!
# The columns of a text

The masks of the routine pick the lead bytes and the continuation bytes of the table of
well-formed sequences, and its shifts put their code point together.  What a code point adds
depends on its range alone, not on the order of the tests.

## Main results

* `classify_eq`: what a code point adds.
* `loop_encodes`: a well-formed sequence at the front is taken, and its width added.
* `loop_fails`: without one the routine fails.
* `petrushUtf8Width_spec`: the result for every text, and for two texts put together.
-/

namespace Petrush.Verified.Utf8Columns

open Petrush.Asm.Utf8Width
open Petrush.Lib.Utf8

/-! ## The documented ranges -/

/-- The combining characters. -/
def combiningRanges : List (Nat × Nat) :=
  [(0x0300, 0x036F), (0x1AB0, 0x1AFF), (0x1DC0, 0x1DFF), (0x20D0, 0x20FF), (0xFE20, 0xFE2F)]

/-- The wide characters; U+303F is none. -/
def wideRanges : List (Nat × Nat) :=
  [(0x1100, 0x115F), (0x2329, 0x232A), (0x2E80, 0x303E), (0x3040, 0xA4CF), (0xAC00, 0xD7A3),
    (0xF900, 0xFAFF), (0xFE10, 0xFE19), (0xFE30, 0xFE6F), (0xFF00, 0xFF60), (0xFFE0, 0xFFE6),
    (0x20000, 0x2FFFD), (0x30000, 0x3FFFD)]

def inRanges (ranges : List (Nat × Nat)) (cp : Nat) : Bool :=
  ranges.any fun r => decide (r.1 ≤ cp ∧ cp ≤ r.2)

/-- The columns of a code point. -/
def columns (cp : Nat) : Nat :=
  if inRanges combiningRanges cp then 0 else if inRanges wideRanges cp then 2 else 1

/-! ## `.Lclassify` -/

theorem between_iff (lo hi x : BitVec 32) :
    between lo hi x = true ↔ lo.toNat ≤ x.toNat ∧ x.toNat ≤ hi.toNat := by
  rw [between, BitVec.ult, BitVec.ult, Bool.and_eq_true, Bool.not_eq_true', Bool.not_eq_true',
    decide_eq_false_iff_not, decide_eq_false_iff_not, Nat.not_lt, Nat.not_lt]

theorem ult_iff (x y : BitVec 32) : x.ult y = true ↔ x.toNat < y.toNat := by
  rw [BitVec.ult, decide_eq_true_eq]

theorem eq_ofNat_iff (x : BitVec 32) (n : Nat) : x = BitVec.ofNat 32 n ↔ x.toNat = n % 2 ^ 32 := by
  rw [← BitVec.toNat_inj, BitVec.toNat_ofNat]

theorem inRanges_cons (r : Nat × Nat) (ranges : List (Nat × Nat)) (cp : Nat) :
    inRanges (r :: ranges) cp = true ↔ r.1 ≤ cp ∧ cp ≤ r.2 ∨ inRanges ranges cp = true := by
  rw [inRanges, List.any_cons, Bool.or_eq_true, decide_eq_true_eq, inRanges]

theorem inRanges_nil (cp : Nat) : inRanges [] cp = false := rfl

/-- The wide ranges from the Hangul syllables on. -/
def lateRanges : List (Nat × Nat) := wideRanges.drop 4

/-- What is in some range is not below all of them. -/
theorem le_of_inRanges {ranges : List (Nat × Nat)} {lo cp : Nat} (hlo : ∀ r ∈ ranges, lo ≤ r.1)
    (h : inRanges ranges cp = true) : lo ≤ cp := by
  obtain ⟨r, hr, hcp⟩ := List.any_eq_true.mp h
  exact Nat.le_trans (hlo r hr) (of_decide_eq_true hcp).1

/-- The tests from `.Lwide2` on. -/
theorem wide2_eq (x : BitVec 32) :
    (if between 0xAC00#32 0xD7A3#32 x then 2#32
     else if between 0xF900#32 0xFAFF#32 x then 2#32
     else if between 0xFE10#32 0xFE19#32 x then 2#32
     else if between 0xFE30#32 0xFE6F#32 x then 2#32
     else if between 0xFF00#32 0xFF60#32 x then 2#32
     else if between 0xFFE0#32 0xFFE6#32 x then 2#32
     else if between 0x20000#32 0x2FFFD#32 x then 2#32
     else if between 0x30000#32 0x3FFFD#32 x then 2#32
     else 1#32) = if inRanges lateRanges x.toNat then 2#32 else 1#32 := by
  have hlate : lateRanges = [(0xAC00, 0xD7A3), (0xF900, 0xFAFF), (0xFE10, 0xFE19),
    (0xFE30, 0xFE6F), (0xFF00, 0xFF60), (0xFFE0, 0xFFE6), (0x20000, 0x2FFFD),
    (0x30000, 0x3FFFD)] := rfl
  simp only [hlate, inRanges_cons, inRanges_nil, Bool.false_eq_true, if_false, ite_or, between_iff,
    BitVec.toNat_ofNat, Nat.reducePow, Nat.reduceMod]

/-- The tests of `.Lwide` come to the ranges. -/
theorem wide_eq (x : BitVec 32) :
    wide x = if inRanges wideRanges x.toNat then 2#32 else 1#32 := by
  have hsplit : wideRanges = (0x1100, 0x115F) :: (0x2329, 0x232A) :: (0x2E80, 0x303E) ::
    (0x3040, 0xA4CF) :: lateRanges := rfl
  rw [wide, wide2_eq]
  simp only [hsplit, inRanges_cons, between_iff, ult_iff, Bool.not_eq_true', ← Bool.not_eq_true,
    eq_ofNat_iff x, BitVec.toNat_ofNat, Nat.reducePow, Nat.reduceMod]
  have hle : inRanges lateRanges x.toNat = true → 0xAC00 ≤ x.toNat :=
    le_of_inRanges (by decide)
  generalize x.toNat = cp at hle ⊢
  by_cases hlate : inRanges lateRanges cp = true
  · have hmin := hle hlate
    simp only [hlate, or_true, if_true]
    split_ifs <;> first | rfl | omega
  · simp only [hlate, or_false, Bool.false_eq_true, if_false]
    split_ifs <;> first | rfl | omega

/-- **What a code point adds**: its columns. -/
theorem classify_eq (x : BitVec 32) : classify x = BitVec.ofNat 32 (columns x.toNat) := by
  rw [classify, wide_eq, columns]
  simp only [combiningRanges, inRanges_cons, inRanges_nil, Bool.false_eq_true, if_false, ite_or,
    between_iff, BitVec.toNat_ofNat, Nat.reducePow, Nat.reduceMod, apply_ite (BitVec.ofNat 32)]

/-! ## The masks -/

theorem toNat_loadByte (b : UInt8) : (loadByte b).toNat = b.toNat := by
  have hb := b.toNat_lt
  rw [loadByte, BitVec.toNat_ofNat, Nat.mod_eq_of_lt (by omega)]

/-- What the masks say of a byte. -/
theorem masks : ∀ x < 256,
    (BitVec.ofNat 32 x &&& 0x80#32 = 0#32 ↔ x ≤ 0x7F) ∧
    (BitVec.ofNat 32 x &&& 0xC0#32 = 0x80#32 ↔ 0x80 ≤ x ∧ x ≤ 0xBF) ∧
    (BitVec.ofNat 32 x &&& 0xE0#32 = 0xC0#32 ↔ 0xC0 ≤ x ∧ x ≤ 0xDF) ∧
    (BitVec.ofNat 32 x &&& 0xF0#32 = 0xE0#32 ↔ 0xE0 ≤ x ∧ x ≤ 0xEF) ∧
    (BitVec.ofNat 32 x &&& 0xF8#32 = 0xF0#32 ↔ 0xF0 ≤ x ∧ x ≤ 0xF7) := by decide +kernel

/-- The bits that are left of a continuation byte, and of a lead byte. -/
theorem lowBits : ∀ x < 256,
    (0x80 ≤ x → x ≤ 0xBF → BitVec.ofNat 32 x &&& 0x3F#32 = BitVec.ofNat 32 (x - 0x80)) ∧
    (0xC0 ≤ x → x ≤ 0xDF → BitVec.ofNat 32 x &&& 0x1F#32 = BitVec.ofNat 32 (x - 0xC0)) ∧
    (0xE0 ≤ x → x ≤ 0xEF → BitVec.ofNat 32 x &&& 0x0F#32 = BitVec.ofNat 32 (x - 0xE0)) ∧
    (0xF0 ≤ x → x ≤ 0xF7 → BitVec.ofNat 32 x &&& 0x07#32 = BitVec.ofNat 32 (x - 0xF0)) := by
  decide +kernel

theorem ascii_iff (a : UInt8) : loadByte a &&& 0x80#32 = 0#32 ↔ a.toNat ≤ 0x7F :=
  (masks a.toNat a.toNat_lt).1

theorem cont_iff (b : UInt8) : loadByte b &&& 0xC0#32 = 0x80#32 ↔ Continuation b :=
  (masks b.toNat b.toNat_lt).2.1

theorem lead2_iff (a : UInt8) :
    loadByte a &&& 0xE0#32 = 0xC0#32 ↔ 0xC0 ≤ a.toNat ∧ a.toNat ≤ 0xDF :=
  (masks a.toNat a.toNat_lt).2.2.1

theorem lead3_iff (a : UInt8) :
    loadByte a &&& 0xF0#32 = 0xE0#32 ↔ 0xE0 ≤ a.toNat ∧ a.toNat ≤ 0xEF :=
  (masks a.toNat a.toNat_lt).2.2.2.1

theorem lead4_iff (a : UInt8) :
    loadByte a &&& 0xF8#32 = 0xF0#32 ↔ 0xF0 ≤ a.toNat ∧ a.toNat ≤ 0xF7 :=
  (masks a.toNat a.toNat_lt).2.2.2.2

theorem isCont_iff (b : UInt8) : isCont (loadByte b) = true ↔ Continuation b := by
  rw [isCont, beq_iff_eq, cont_iff]

/-! ## The tests -/

theorem not_ult_iff (x y : BitVec 32) : (!x.ult y) = true ↔ y.toNat ≤ x.toNat := by
  rw [Bool.not_eq_true', ← Bool.not_eq_true, ult_iff, Nat.not_lt]

theorem accepts2_iff {a b : UInt8} (ha : a.toNat ≤ 0xDF) :
    accepts2 (loadByte a) (loadByte b) = true ↔ 0xC2 ≤ a.toNat ∧ Second a b := by
  rw [accepts2, Bool.and_eq_true, not_ult_iff, isCont_iff, toNat_loadByte]
  unfold Second Continuation secondMin secondMax
  simp only [BitVec.toNat_ofNat, Nat.reducePow, Nat.reduceMod]
  split_ifs <;> omega

/-- The lead byte is some value. -/
theorem loadByte_eq_iff (a : UInt8) {n : Nat} (hn : n < 2 ^ 32) :
    loadByte a = BitVec.ofNat 32 n ↔ a.toNat = n := by
  rw [eq_ofNat_iff, toNat_loadByte, Nat.mod_eq_of_lt hn]

theorem accepts3_iff {a b c : UInt8} (ha : a.toNat ≤ 0xEF) :
    accepts3 (loadByte a) (loadByte b) (loadByte c) = true ↔ Second a b ∧ Continuation c := by
  have he0 : loadByte a = 0xE0#32 ↔ a.toNat = 0xE0 := loadByte_eq_iff a (by decide)
  have hed : loadByte a = 0xED#32 ↔ a.toNat = 0xED := loadByte_eq_iff a (by decide)
  rw [accepts3, Bool.and_eq_true, Bool.and_eq_true, isCont_iff, isCont_iff]
  unfold Second secondMin secondMax
  simp only [he0, hed]
  split_ifs <;>
    simp only [not_ult_iff, toNat_loadByte, BitVec.toNat_ofNat, Nat.reducePow, Nat.reduceMod,
      and_true] <;>
    unfold Continuation <;> omega

theorem accepts4_iff {a b c d : UInt8} (ha : 0xF0 ≤ a.toNat) :
    accepts4 (loadByte a) (loadByte b) (loadByte c) (loadByte d) = true ↔
      a.toNat ≤ 0xF4 ∧ Second a b ∧ Continuation c ∧ Continuation d := by
  have hf0 : loadByte a = 0xF0#32 ↔ a.toNat = 0xF0 := loadByte_eq_iff a (by decide)
  have hf4 : loadByte a = 0xF4#32 ↔ a.toNat = 0xF4 := loadByte_eq_iff a (by decide)
  rw [accepts4, Bool.and_eq_true, Bool.and_eq_true, Bool.and_eq_true, Bool.and_eq_true, isCont_iff,
    isCont_iff, isCont_iff, not_ult_iff, toNat_loadByte]
  unfold Second secondMin secondMax
  simp only [hf0, hf4]
  split_ifs <;>
    simp only [not_ult_iff, toNat_loadByte, BitVec.toNat_ofNat, Nat.reducePow, Nat.reduceMod,
      and_true] <;>
    unfold Continuation <;> omega

/-! ## The code points -/

theorem cont_low {b : UInt8} (h : Continuation b) :
    loadByte b &&& 0x3F#32 = BitVec.ofNat 32 (b.toNat - 0x80) :=
  (lowBits b.toNat b.toNat_lt).1 h.1 h.2

theorem shiftLeft_ofNat (x k : Nat) :
    BitVec.ofNat 32 x <<< k = BitVec.ofNat 32 (x * 2 ^ k) := by
  rw [← BitVec.toNat_inj, BitVec.toNat_shiftLeft, BitVec.toNat_ofNat, BitVec.toNat_ofNat,
    Nat.shiftLeft_eq, Nat.mod_mul_mod]

/-- Bits that do not meet are added. -/
theorem or_ofNat (k x : Nat) {y : Nat} (hy : y < 2 ^ k) (hfits : x * 2 ^ k + y < 2 ^ 32) :
    BitVec.ofNat 32 (x * 2 ^ k) ||| BitVec.ofNat 32 y = BitVec.ofNat 32 (x * 2 ^ k + y) := by
  rw [← BitVec.toNat_inj, BitVec.toNat_or, BitVec.toNat_ofNat, BitVec.toNat_ofNat,
    BitVec.toNat_ofNat, Nat.mod_eq_of_lt (by omega), Nat.mod_eq_of_lt (by omega),
    Nat.mod_eq_of_lt hfits, Nat.mul_comm, Nat.two_pow_add_eq_or_of_lt hy]

/-- Six more bits behind a number that has been shifted. -/
theorem join_bits (x y k : Nat) : x * 2 ^ (k + 6) + y * 2 ^ k = (x * 64 + y) * 2 ^ k := by
  rw [Nat.add_mul, Nat.mul_assoc, Nat.pow_add, Nat.mul_comm (2 ^ k) (2 ^ 6)]

theorem codePoint2_eq {a b : UInt8} (hlo : 0xC0 ≤ a.toNat) (hhi : a.toNat ≤ 0xDF) (hb : Continuation b) :
    codePoint2 (loadByte a) (loadByte b) =
      BitVec.ofNat 32 ((a.toNat - 0xC0) * 64 + (b.toNat - 0x80)) := by
  have hlead : loadByte a &&& 0x1F#32 = BitVec.ofNat 32 (a.toNat - 0xC0) :=
    (lowBits a.toNat a.toNat_lt).2.1 hlo hhi
  have hcont := hb.2
  rw [codePoint2, hlead, cont_low hb, shiftLeft_ofNat, or_ofNat 6 _ (by omega) (by omega)]
  exact congrArg (BitVec.ofNat 32) (by ring)

theorem codePoint3_eq {a b c : UInt8} (hlo : 0xE0 ≤ a.toNat) (hhi : a.toNat ≤ 0xEF) (hb : Continuation b)
    (hc : Continuation c) :
    codePoint3 (loadByte a) (loadByte b) (loadByte c) =
      BitVec.ofNat 32 ((a.toNat - 0xE0) * 4096 + (b.toNat - 0x80) * 64 + (c.toNat - 0x80)) := by
  have hlead : loadByte a &&& 0x0F#32 = BitVec.ofNat 32 (a.toNat - 0xE0) :=
    (lowBits a.toNat a.toNat_lt).2.2.1 hlo hhi
  have hb' := hb.2
  have hc' := hc.2
  have hjoin : (a.toNat - 0xE0) * 2 ^ 12 + (b.toNat - 0x80) * 2 ^ 6 =
      ((a.toNat - 0xE0) * 64 + (b.toNat - 0x80)) * 2 ^ 6 := join_bits _ _ 6
  rw [codePoint3, hlead, cont_low hb, cont_low hc, shiftLeft_ofNat, shiftLeft_ofNat,
    or_ofNat 12 _ (by omega) (by omega), hjoin, or_ofNat 6 _ (by omega) (by omega)]
  exact congrArg (BitVec.ofNat 32) (by ring)

theorem codePoint4_eq {a b c d : UInt8} (hlo : 0xF0 ≤ a.toNat) (hhi : a.toNat ≤ 0xF4)
    (hb : Continuation b) (hc : Continuation c) (hd : Continuation d) :
    codePoint4 (loadByte a) (loadByte b) (loadByte c) (loadByte d) =
      BitVec.ofNat 32 ((a.toNat - 0xF0) * 262144 + (b.toNat - 0x80) * 4096 +
        (c.toNat - 0x80) * 64 + (d.toNat - 0x80)) := by
  have hlead : loadByte a &&& 0x07#32 = BitVec.ofNat 32 (a.toNat - 0xF0) :=
    (lowBits a.toNat a.toNat_lt).2.2.2 hlo (by omega)
  have hb' := hb.2
  have hc' := hc.2
  have hd' := hd.2
  have hfirst : (a.toNat - 0xF0) * 2 ^ 18 + (b.toNat - 0x80) * 2 ^ 12 =
      ((a.toNat - 0xF0) * 64 + (b.toNat - 0x80)) * 2 ^ 12 := join_bits _ _ 12
  have hnext : ((a.toNat - 0xF0) * 64 + (b.toNat - 0x80)) * 2 ^ 12 + (c.toNat - 0x80) * 2 ^ 6 =
      (((a.toNat - 0xF0) * 64 + (b.toNat - 0x80)) * 64 + (c.toNat - 0x80)) * 2 ^ 6 :=
    join_bits _ _ 6
  rw [codePoint4, hlead, cont_low hb, cont_low hc, cont_low hd, shiftLeft_ofNat, shiftLeft_ofNat,
    shiftLeft_ofNat, or_ofNat 18 _ (by omega) (by omega), hfirst,
    or_ofNat 12 _ (by omega) (by omega), hnext, or_ofNat 6 _ (by omega) (by omega)]
  exact congrArg (BitVec.ofNat 32) (by ring)

/-! ## The loop -/

theorem columns_ascii {cp : Nat} (h : cp ≤ 0x7F) : columns cp = 1 := by
  have hcomb : ¬ inRanges combiningRanges cp = true := by
    intro hin
    have hle : 0x80 ≤ cp := le_of_inRanges (by decide) hin
    omega
  have hwide : ¬ inRanges wideRanges cp = true := by
    intro hin
    have hle : 0x80 ≤ cp := le_of_inRanges (by decide) hin
    omega
  rw [columns, if_neg hcomb, if_neg hwide]

/-- **A well-formed sequence at the front is taken**, and its columns are added. -/
theorem loop_encodes {seq : List UInt8} {cp : Nat} (h : Encodes seq cp) (r10 : BitVec 32)
    (rest : List UInt8) :
    loop r10 (seq ++ rest) = loop (r10 + BitVec.ofNat 32 (columns cp)) rest := by
  have hscalar := h.scalar
  have hclass : ∀ x : BitVec 32, x = BitVec.ofNat 32 cp →
      classify x = BitVec.ofNat 32 (columns cp) := by
    rintro _ rfl
    rw [classify_eq, BitVec.toNat_ofNat, Nat.mod_eq_of_lt (by omega)]
  cases h with
  | @one a ha =>
      rw [List.singleton_append, loop.eq_def, columns_ascii ha]
      simp only
      rw [if_pos ((ascii_iff a).mpr ha)]
  | @two a b hmin hmax hb =>
      have hpoint := codePoint2_eq (by omega) hmax hb.cont
      simp only [List.cons_append, List.nil_append, loop, ascii_iff, cont_iff, lead2_iff, Continuation]
      rw [if_neg (by omega), if_neg (by omega), if_pos ⟨by omega, hmax⟩,
        if_pos ((accepts2_iff hmax).mpr ⟨hmin, hb⟩), hclass _ hpoint]
  | @three a b c hmin hmax hb hc =>
      have hpoint := codePoint3_eq hmin hmax hb.cont hc
      simp only [List.cons_append, List.nil_append, loop, ascii_iff, cont_iff, lead2_iff,
        lead3_iff, Continuation]
      rw [if_neg (by omega), if_neg (by omega), if_neg (by omega), if_pos ⟨hmin, hmax⟩,
        if_pos ((accepts3_iff hmax).mpr ⟨hb, hc⟩), hclass _ hpoint]
  | @four a b c d hmin hmax hb hc hd =>
      have hpoint := codePoint4_eq hmin hmax hb.cont hc hd
      simp only [List.cons_append, List.nil_append, loop, ascii_iff, cont_iff, lead2_iff,
        lead3_iff, lead4_iff, Continuation]
      rw [if_neg (by omega), if_neg (by omega), if_neg (by omega), if_neg (by omega),
        if_pos ⟨hmin, by omega⟩, if_pos ((accepts4_iff hmin).mpr ⟨hmax, hb, hc, hd⟩),
        hclass _ hpoint]

/-- **Without a well-formed sequence at the front the routine fails.** -/
theorem loop_fails {bytes : List UInt8} (hne : bytes ≠ [])
    (hnone : ∀ seq rest cp, bytes = seq ++ rest → ¬ Encodes seq cp) (r10 : BitVec 32) :
    loop r10 bytes = -1#32 := by
  cases bytes with
  | nil => contradiction
  | cons a rest =>
      rw [loop.eq_def]
      simp only
      by_cases hascii : a.toNat ≤ 0x7F
      · exact absurd (.one hascii) (hnone [a] rest _ rfl)
      rw [if_neg (by rw [ascii_iff]; exact hascii)]
      split_ifs with hcont h2 h3 h4
      · rfl
      · obtain ⟨hlo, hhi⟩ := (lead2_iff a).mp h2
        split
        next b rest =>
          rw [if_neg]
          intro hok
          obtain ⟨hmin, hb⟩ := (accepts2_iff hhi).mp hok
          exact hnone [a, b] rest _ rfl (.two hmin hhi hb)
        next => rfl
      · obtain ⟨hlo, hhi⟩ := (lead3_iff a).mp h3
        split
        next b c rest =>
          rw [if_neg]
          intro hok
          obtain ⟨hb, hc⟩ := (accepts3_iff hhi).mp hok
          exact hnone [a, b, c] rest _ rfl (.three hlo hhi hb hc)
        next => rfl
      · obtain ⟨hlo, hhi⟩ := (lead4_iff a).mp h4
        split
        next b c d rest =>
          rw [if_neg]
          intro hok
          obtain ⟨hmax, hb, hc, hd⟩ := (accepts4_iff hlo).mp hok
          exact hnone [a, b, c, d] rest _ rfl (.four hlo hmax hb hc hd)
        next => rfl
      · rfl

/-- A well-formed text: its columns are summed up. -/
theorem loop_decodes {bytes : List UInt8} {cps : List Nat} (h : Decodes bytes cps) :
    ∀ r10 : BitVec 32, loop r10 bytes = r10 + BitVec.ofNat 32 (cps.map columns).sum := by
  induction h with
  | nil =>
      intro r10
      rw [loop, List.map_nil, List.sum_nil, BitVec.add_zero]
  | cons hseq _ ih =>
      intro r10
      rw [loop_encodes hseq, ih, List.map_cons, List.sum_cons, BitVec.add_assoc, ← BitVec.ofNat_add]

/-- A text that is not well-formed: it fails, after any columns. -/
theorem loop_malformed {bytes : List UInt8} (h : ¬ WellFormed bytes) :
    ∀ r10 : BitVec 32, loop r10 bytes = -1#32 := by
  induction hn : bytes.length using Nat.strongRecOn generalizing bytes with
  | ind n ih =>
      intro r10
      have hne : bytes ≠ [] := by
        rintro rfl
        exact h ⟨[], .nil⟩
      by_cases hfront : ∃ seq rest cp, bytes = seq ++ rest ∧ Encodes seq cp
      · obtain ⟨seq, rest, cp, rfl, hseq⟩ := hfront
        have hrest : ¬ WellFormed rest := fun ⟨cps, hcps⟩ => h ⟨cp :: cps, .cons hseq hcps⟩
        have hlt : rest.length < n := by
          have hpos := hseq.length_pos
          rw [List.length_append] at hn
          omega
        rw [loop_encodes hseq]
        exact ih rest.length hlt hrest rfl _
      · refine loop_fails hne ?_ r10
        intro seq rest cp hbytes hseq
        exact hfront ⟨seq, rest, cp, hbytes, hseq⟩

/-! ## The result -/

theorem columns_le (cp : Nat) : columns cp ≤ 2 := by
  unfold columns
  split_ifs <;> omega

/-- No byte adds more than two columns. -/
theorem sum_columns_le {bytes : List UInt8} {cps : List Nat} (h : Decodes bytes cps) :
    (cps.map columns).sum ≤ 2 * bytes.length := by
  induction h with
  | nil => exact Nat.le_refl 0
  | @cons seq rest cp cps hseq _ ih =>
      have hcp := columns_le cp
      have hpos := hseq.length_pos
      rw [List.map_cons, List.sum_cons, List.length_append]
      omega

theorem petrushUtf8Width_eq (bytes : List UInt8) :
    petrushUtf8Width (some bytes) = loop 0#32 bytes := by
  cases bytes <;> rfl

/-- The result is the sum of the columns. -/
theorem width_decodes {bytes : List UInt8} {cps : List Nat} (hlen : bytes.length < 2 ^ 30)
    (h : Decodes bytes cps) :
    (petrushUtf8Width (some bytes)).toInt = ((cps.map columns).sum : Nat) := by
  have hsum := sum_columns_le h
  have hmod : (cps.map columns).sum % 2 ^ 32 = (cps.map columns).sum := Nat.mod_eq_of_lt (by omega)
  rw [petrushUtf8Width_eq, loop_decodes h, BitVec.zero_add,
    BitVec.toInt_eq_toNat_of_lt (by rw [BitVec.toNat_ofNat, hmod]; omega), BitVec.toNat_ofNat, hmod]

theorem width_malformed {bytes : List UInt8} (h : ¬ WellFormed bytes) :
    (petrushUtf8Width (some bytes)).toInt = -1 := by
  rw [petrushUtf8Width_eq, loop_malformed h]
  rfl

/-- **The result is `-1` exactly for a text that is not well-formed, and else the sum of the
columns of its code points**; so it is additive. -/
theorem petrushUtf8Width_spec :
    (∀ bytes : List UInt8, bytes.length < 2 ^ 30 →
      ((petrushUtf8Width (some bytes)).toInt = -1 ↔ ¬ WellFormed bytes) ∧
      ∀ cps, Decodes bytes cps →
        (petrushUtf8Width (some bytes)).toInt = ((cps.map columns).sum : Nat)) ∧
    ∀ front back : List UInt8, (front ++ back).length < 2 ^ 30 → WellFormed front →
      WellFormed back →
      (petrushUtf8Width (some (front ++ back))).toInt =
        (petrushUtf8Width (some front)).toInt + (petrushUtf8Width (some back)).toInt := by
  refine ⟨?_, ?_⟩
  · intro bytes hlen
    refine ⟨⟨?_, width_malformed⟩, fun cps => width_decodes hlen⟩
    rintro hminus ⟨cps, hcps⟩
    rw [width_decodes hlen hcps] at hminus
    omega
  · rintro front back hlen ⟨cps, hfront⟩ ⟨cps', hback⟩
    have hboth := hlen
    rw [List.length_append] at hboth
    rw [width_decodes hlen (hfront.append hback), width_decodes (by omega) hfront,
      width_decodes (by omega) hback, List.map_append, List.sum_append, Int.natCast_add]

/-- The letter `a` and a combining accent. -/
theorem petrushUtf8Width_spec_accent :
    ((petrushUtf8Width (some [0x61, 0xCC, 0x81])).toInt = -1 ↔ ¬ WellFormed [0x61, 0xCC, 0x81]) ∧
    (petrushUtf8Width (some ([0x61] ++ [0xCC, 0x81]))).toInt =
      (petrushUtf8Width (some [0x61])).toInt + (petrushUtf8Width (some [0xCC, 0x81])).toInt :=
  ⟨(petrushUtf8Width_spec.1 [0x61, 0xCC, 0x81] (by decide)).1,
    petrushUtf8Width_spec.2 [0x61] [0xCC, 0x81] (by decide)
      ⟨_, .cons (.one (by decide)) .nil⟩
      ⟨_, .cons (.two (by decide) (by decide) ⟨by decide, by decide⟩) .nil⟩⟩

end Petrush.Verified.Utf8Columns
