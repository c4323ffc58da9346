import Mathlib

/-!
# Well-formed UTF-8

The well-formed byte sequences of the Unicode standard (table 3-7), each with its code
point.  The table has nine rows; they differ in the lead bytes and in the range of the
second byte, so the sequences of three and of four bytes are one constructor each.

## Main results

* `Decodes.append`: well-formed texts can be put together.
* `Encodes.length_pos`: no sequence is empty.
-/

namespace Petrush.Lib.Utf8

/-- A continuation byte. -/
def Continuation (b : UInt8) : Prop := 0x80 ≤ b.toNat ∧ b.toNat ≤ 0xBF

/-- The least second byte behind a lead byte. -/
def secondMin (a : UInt8) : Nat := if a.toNat = 0xE0 then 0xA0 else if a.toNat = 0xF0 then 0x90 else 0x80

/-- The greatest. -/
def secondMax (a : UInt8) : Nat := if a.toNat = 0xED then 0x9F else if a.toNat = 0xF4 then 0x8F else 0xBF

/-- A second byte that may follow a lead byte. -/
def Second (a b : UInt8) : Prop := secondMin a ≤ b.toNat ∧ b.toNat ≤ secondMax a

/-- The sequence is well-formed, and stands for the code point. -/
inductive Encodes : List UInt8 → Nat → Prop
  | one {a : UInt8} (ha : a.toNat ≤ 0x7F) : Encodes [a] a.toNat
  | two {a b : UInt8} (hmin : 0xC2 ≤ a.toNat) (hmax : a.toNat ≤ 0xDF) (hb : Second a b) :
      Encodes [a, b] ((a.toNat - 0xC0) * 64 + (b.toNat - 0x80))
  | three {a b c : UInt8} (hmin : 0xE0 ≤ a.toNat) (hmax : a.toNat ≤ 0xEF) (hb : Second a b)
      (hc : Continuation c) :
      Encodes [a, b, c] ((a.toNat - 0xE0) * 4096 + (b.toNat - 0x80) * 64 + (c.toNat - 0x80))
  | four {a b c d : UInt8} (hmin : 0xF0 ≤ a.toNat) (hmax : a.toNat ≤ 0xF4) (hb : Second a b)
      (hc : Continuation c) (hd : Continuation d) :
      Encodes [a, b, c, d] ((a.toNat - 0xF0) * 262144 + (b.toNat - 0x80) * 4096 +
        (c.toNat - 0x80) * 64 + (d.toNat - 0x80))

/-- The bytes are the sequences of some code points. -/
inductive Decodes : List UInt8 → List Nat → Prop
  | nil : Decodes [] []
  | cons {seq rest : List UInt8} {cp : Nat} {cps : List Nat} (hseq : Encodes seq cp)
      (hrest : Decodes rest cps) : Decodes (seq ++ rest) (cp :: cps)

/-- The bytes are well-formed. -/
def WellFormed (bytes : List UInt8) : Prop := ∃ cps, Decodes bytes cps

/-- A second byte is a continuation byte. -/
theorem Second.cont {a b : UInt8} (h : Second a b) : Continuation b := by
  unfold Second secondMin secondMax at h
  unfold Continuation
  split_ifs at h <;> omega

theorem Encodes.length_pos {seq : List UInt8} {cp : Nat} (h : Encodes seq cp) : 0 < seq.length := by
  cases h <;> exact Nat.succ_pos _

/-- No code point is above U+10FFFF, and none is a surrogate. -/
theorem Encodes.scalar {seq : List UInt8} {cp : Nat} (h : Encodes seq cp) :
    cp < 0xD800 ∨ 0xDFFF < cp ∧ cp ≤ 0x10FFFF := by
  cases h with
  | one ha => omega
  | two hmin hmax hb =>
      have hcont := hb.cont
      unfold Continuation at hcont
      omega
  | three hmin hmax hb hc =>
      unfold Second secondMin secondMax at hb
      unfold Continuation at hc
      split_ifs at hb <;> omega
  | four hmin hmax hb hc hd =>
      unfold Second secondMin secondMax at hb
      unfold Continuation at hc hd
      split_ifs at hb <;> omega

/-- **Well-formed texts can be put together.** -/
theorem Decodes.append {front back : List UInt8} {cps cps' : List Nat} (h : Decodes front cps)
    (h' : Decodes back cps') : Decodes (front ++ back) (cps ++ cps') := by
  induction h with
  | nil => exact h'
  | cons hseq _ ih =>
      rw [List.append_assoc]
      exact Decodes.cons hseq ih

end Petrush.Lib.Utf8
