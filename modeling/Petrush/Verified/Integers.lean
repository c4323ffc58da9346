import Petrush.Asm.ParseI64
import Petrush.Mid.Arith

/-!
# Integers in decimal

`parse_i64_local` has two bodies, one for each build.  The C loop asks
whether `acc` is above `(lim - d) / 10`; the assembly compares the magnitude with
`LIMIT / 10` and, when they are equal, the digit with the last digit of the limit.
Both ask whether `10 * acc + d` is above the limit.

## Main results

* `loop_eq` — the two loops agree.
* `parse_int64` — each reads the numerals of the numbers of `int64_t` and nothing else.
-/

namespace Petrush.Verified.Integers

open Petrush.Asm.ParseI64
open Petrush.Lib.CText
open Petrush.Mid.Arith

/-! ## Numerals -/

/-- The number some digits are written behind `n`. -/
def numeralFrom (n : Nat) (digits : Text) : Nat :=
  digits.foldl (fun n c => 10 * n + digitValue c) n

/-- The number some digits stand for. -/
def numeral (digits : Text) : Nat := numeralFrom 0 digits

/-- The text is an optional sign and at least one digit, and stands for a number of
`int64_t`. -/
def IsInt64 (s : Text) (v : Int) : Prop :=
  ∃ sign digits, s = sign ++ digits ∧ (sign = [] ∨ sign = ['+'] ∨ sign = ['-']) ∧
    digits ≠ [] ∧ digits.all isdigit ∧
    v = (if sign = ['-'] then -(numeral digits : Int) else numeral digits) ∧
    -2 ^ 63 ≤ v ∧ v < 2 ^ 63

@[simp] theorem numeralFrom_nil (n : Nat) : numeralFrom n [] = n := rfl

@[simp] theorem numeralFrom_cons (n : Nat) (c : Char) (digits : Text) :
    numeralFrom n (c :: digits) = numeralFrom (10 * n + digitValue c) digits := by
  rw [numeralFrom, List.foldl_cons, numeralFrom]

/-- Digits only make the number greater. -/
theorem le_numeralFrom (digits : Text) : ∀ n, n ≤ numeralFrom n digits := by
  induction digits with
  | nil =>
      intro n
      simp
  | cons c digits ih =>
      intro n
      have hnext := ih (10 * n + digitValue c)
      rw [numeralFrom_cons]
      omega

/-- The bytes that are digits. -/
theorem isdigit_eq (c : Char) : isdigit c = (decide (48 ≤ c.toNat) && decide (c.toNat ≤ 57)) := by
  simp [isdigit, Char.isDigit, UInt32.le_iff_toNat_le]

theorem digitValue_eq (c : Char) : digitValue c = c.toNat - 48 := rfl

theorem digitValue_le {c : Char} (h : isdigit c = true) : digitValue c ≤ 9 := by
  have hc : 48 ≤ c.toNat ∧ c.toNat ≤ 57 := by simpa [isdigit_eq] using h
  rw [digitValue_eq]
  omega

/-! ## The C loop -/

/-- A byte that is no digit ends the loop. -/
theorem digitsUpTo_other (lim acc : Nat) {c : Char} (rest : Text) (h : isdigit c = false) :
    digitsUpTo lim acc (c :: rest) = none := by
  rw [digitsUpTo, if_pos (by rw [h]; rfl)]

/-- A digit is added unless the number would be above the limit. -/
theorem digitsUpTo_digit {lim : Nat} (hlim : 9 ≤ lim) (acc : Nat) {c : Char} (rest : Text)
    (h : isdigit c = true) :
    digitsUpTo lim acc (c :: rest) =
      if lim < 10 * acc + digitValue c then none
      else digitsUpTo lim (10 * acc + digitValue c) rest := by
  have hd := digitValue_le h
  have htest : acc > (lim - digitValue c) / 10 ↔ lim < 10 * acc + digitValue c := by omega
  have hcomm : acc * 10 + digitValue c = 10 * acc + digitValue c := by omega
  rw [digitsUpTo, h, hcomm]
  simp [htest]

/-- **The C loop** accepts digits whose number is at most the limit. -/
theorem digitsUpTo_eq {lim : Nat} (hlim : 9 ≤ lim) (digits : Text) : ∀ acc, acc ≤ lim →
    digitsUpTo lim acc digits =
      if digits.all isdigit ∧ numeralFrom acc digits ≤ lim then some (numeralFrom acc digits)
      else none := by
  induction digits with
  | nil =>
      intro acc hacc
      simp [digitsUpTo, hacc]
  | cons c digits ih =>
      intro acc hacc
      cases hc : isdigit c with
      | false =>
          rw [digitsUpTo_other lim acc digits hc]
          simp [hc]
      | true =>
          rw [digitsUpTo_digit hlim acc digits hc, numeralFrom_cons]
          by_cases hover : lim < 10 * acc + digitValue c
          · have hle := le_numeralFrom digits (10 * acc + digitValue c)
            rw [if_pos hover, if_neg (fun h => absurd h.2 (by omega))]
          · rw [if_neg hover, ih _ (by omega)]
            simp [hc]

/-! ## The loop of the assembly -/

/-- The byte in `eax`. -/
theorem loadByte_toNat (c : Char) : (loadByte c).toNat = c.toNat ∧ c.toNat < 2 ^ 31 := by
  have hv := c.valid
  have hval : c.toNat = c.val.toNat := rfl
  simp only [UInt32.isValidChar, Nat.isValidChar] at hv
  rw [loadByte, BitVec.toNat_ofNat]
  omega

/-- Signed comparison of words that are not negative. -/
theorem slt_small {a b : BitVec 32} (ha : a.toNat < 2 ^ 31) (hb : b.toNat < 2 ^ 31) :
    a.slt b = decide (a.toNat < b.toNat) := by
  rw [BitVec.slt_eq_decide, BitVec.toInt_eq_toNat_cond, BitVec.toInt_eq_toNat_cond]
  simp
  omega

/-- What is subtracted leaves the value of a digit. -/
theorem eax_toNat {c : Char} (h : 48 ≤ c.toNat) :
    (loadByte c - 48#32).toNat = digitValue c ∧ digitValue c < 2 ^ 31 := by
  obtain ⟨hload, hlt⟩ := loadByte_toNat c
  rw [BitVec.toNat_sub, hload, digitValue_eq]
  simp
  omega

/-- `.Lmul`, while the words do not overflow. -/
theorem mulAdd_toNat {rcx : BitVec 64} {eax : BitVec 32}
    (h : 10 * rcx.toNat + eax.toNat < 2 ^ 64) : (mulAdd rcx eax).toNat = 10 * rcx.toNat + eax.toNat := by
  simp only [mulAdd, BitVec.toNat_add, BitVec.toNat_mul, BitVec.toNat_setWidth, BitVec.zeroExtend]
  simp
  omega

/-- The limits of the two builds. -/
def limit (neg : Bool) : Nat := int64Max + if neg then 1 else 0

/-- The comparisons with `LIMIT / 10` and with the last digit are one with the limit. -/
theorem above_limit (neg : Bool) (n d : Nat) (hd : d ≤ 9) :
    limit neg < 10 * n + d ↔
      922337203685477580 < n ∨ (n = 922337203685477580 ∧ (if neg then 8 else 7) < d) := by
  cases neg
  · simp only [limit, int64Max, Bool.false_eq_true, if_false]
    omega
  · simp only [limit, int64Max, if_true]
    omega

/-- The register with the last digit of the limit. -/
def lastDigit (neg : Bool) : BitVec 32 := if neg then 8#32 else 7#32

/-- A byte that is no digit jumps to `.Lfail`. -/
theorem loop_other (r10 : BitVec 32) (rcx : BitVec 64) {c : Char} (rest : Text)
    (h : isdigit c = false) : loop r10 rcx (c :: rest) = none := by
  obtain ⟨hload, hlt⟩ := loadByte_toNat c
  rw [loop]
  by_cases hlow : c.toNat < 48
  · have hjl : (loadByte c).slt 48#32 = true := by
      rw [slt_small (by omega) (by decide), hload]
      simpa using hlow
    rw [if_pos hjl]
  · obtain ⟨heax, hsmall⟩ := eax_toNat (by omega : 48 ≤ c.toNat)
    have hhigh : 57 < c.toNat := by
      simp only [isdigit_eq, Bool.and_eq_false_iff, decide_eq_false_iff_not] at h
      omega
    have hjg : (9#32).slt (loadByte c - 48#32) = true := by
      rw [slt_small (by decide) (by omega), heax, digitValue_eq]
      simp
      omega
    rw [if_pos hjg, ite_self]

/-- A digit is added unless the number would be above the limit. -/
theorem loop_digit (neg : Bool) (rcx : BitVec 64) {c : Char} (rest : Text)
    (h : isdigit c = true) :
    loop (lastDigit neg) rcx (c :: rest) =
      if limit neg < 10 * rcx.toNat + digitValue c then none
      else loop (lastDigit neg) (mulAdd rcx (loadByte c - 48#32)) rest := by
  obtain ⟨hload, hlt⟩ := loadByte_toNat c
  have hc : 48 ≤ c.toNat ∧ c.toNat ≤ 57 := by simpa [isdigit_eq] using h
  obtain ⟨heax, hsmall⟩ := eax_toNat hc.1
  have hd := digitValue_le h
  have hjl : ¬ (loadByte c).slt 48#32 = true := by
    rw [slt_small (by omega) (by decide), hload]
    simp
    omega
  have hjg : ¬ (9#32).slt (loadByte c - 48#32) = true := by
    rw [slt_small (by decide) (by omega), heax]
    simp
    omega
  have hja : limitTenth.ult rcx = decide (922337203685477580 < rcx.toNat) := rfl
  have hjb : rcx.ult limitTenth = decide (rcx.toNat < 922337203685477580) := rfl
  have hlast : (lastDigit neg).slt (loadByte c - 48#32) =
      decide ((if neg then 8 else 7) < digitValue c) := by
    cases neg
    · rw [lastDigit, slt_small (by decide) (by omega), heax]
      rfl
    · rw [lastDigit, slt_small (by decide) (by omega), heax]
      rfl
  have htest := above_limit neg rcx.toNat (digitValue c) hd
  rw [loop, if_neg hjl, if_neg hjg, hja, hjb, hlast]
  simp only [htest, decide_eq_true_eq]
  split_ifs <;> first | rfl | omega

/-- **The two loops agree.** -/
theorem loop_eq (neg : Bool) (digits : Text) : ∀ rcx : BitVec 64, rcx.toNat ≤ limit neg →
    (loop (lastDigit neg) rcx digits).map BitVec.toNat =
      digitsUpTo (limit neg) rcx.toNat digits := by
  have hnine : 9 ≤ limit neg := by
    show 9 ≤ int64Max + _
    rw [int64Max]
    omega
  induction digits with
  | nil =>
      intro rcx _
      rfl
  | cons c digits ih =>
      intro rcx hrcx
      cases hc : isdigit c with
      | false =>
          rw [loop_other _ _ _ hc, digitsUpTo_other _ _ _ hc]
          rfl
      | true =>
          have hc' : 48 ≤ c.toNat ∧ c.toNat ≤ 57 := by simpa [isdigit_eq] using hc
          have hlim : limit neg ≤ 2 ^ 63 := by
            cases neg <;> decide
          obtain ⟨heax, -⟩ := eax_toNat hc'.1
          rw [loop_digit neg rcx digits hc, digitsUpTo_digit hnine _ _ hc]
          by_cases hover : limit neg < 10 * rcx.toNat + digitValue c
          · rw [if_pos hover, if_pos hover]
            rfl
          · have hd := digitValue_le hc
            have hmul : (mulAdd rcx (loadByte c - 48#32)).toNat =
                10 * rcx.toNat + digitValue c := by
              rw [mulAdd_toNat (by omega), heax]
            rw [if_neg hover, if_neg hover, ih _ (by omega), hmul]

/-! ## Signs -/

/-- The number of some digits behind a sign, if it is one of `int64_t`. -/
def signed (neg : Bool) (digits : Text) : Option Int :=
  if digits ≠ [] ∧ digits.all isdigit ∧ numeral digits ≤ limit neg then
    some (if neg then -(numeral digits : Int) else numeral digits)
  else none

/-- The number a text stands for. -/
def int64Of : Text → Option Int
  | '+' :: digits => signed false digits
  | '-' :: digits => signed true digits
  | digits => signed false digits

theorem signed_eq_some {neg : Bool} {digits : Text} {v : Int} :
    signed neg digits = some v ↔
      digits ≠ [] ∧ digits.all isdigit ∧ v = (if neg then -(numeral digits : Int) else numeral digits) ∧
        -2 ^ 63 ≤ v ∧ v < 2 ^ 63 := by
  have hlimit : limit neg = 2 ^ 63 - 1 + if neg then 1 else 0 := by
    cases neg <;> decide
  rw [signed, Option.ite_none_right_eq_some, Option.some.injEq, hlimit]
  constructor
  · rintro ⟨⟨hne, hall, hle⟩, rfl⟩
    refine ⟨hne, hall, rfl, ?_⟩
    cases neg <;> simp at hle ⊢ <;> omega
  · rintro ⟨hne, hall, rfl, hmin, hmax⟩
    refine ⟨⟨hne, hall, ?_⟩, rfl⟩
    cases neg <;> simp at hmin hmax ⊢ <;> omega

/-- Digits do not begin with a sign. -/
theorem head_digit {c : Char} {rest : Text} (h : (c :: rest).all isdigit = true) :
    c ≠ '+' ∧ c ≠ '-' := by
  have hc : isdigit c = true := by
    simp only [List.all_cons, Bool.and_eq_true] at h
    exact h.1
  constructor
  · rintro rfl
    exact absurd hc (by decide)
  · rintro rfl
    exact absurd hc (by decide)

/-- What stands before no sign is all digits. -/
theorem int64Of_unsigned {s : Text} (hplus : s.head? ≠ some '+') (hminus : s.head? ≠ some '-') :
    int64Of s = signed false s := by
  unfold int64Of
  split
  · exact absurd rfl hplus
  · exact absurd rfl hminus
  · rfl

theorem isInt64_iff (s : Text) (v : Int) : IsInt64 s v ↔ int64Of s = some v := by
  constructor
  · rintro ⟨sign, digits, rfl, hsign, hne, hall, hv, hrange⟩
    obtain rfl | rfl | rfl := hsign
    · cases digits with
      | nil => contradiction
      | cons c rest =>
          obtain ⟨hplus, hminus⟩ := head_digit hall
          rw [List.nil_append, int64Of_unsigned (by simpa using hplus) (by simpa using hminus)]
          exact signed_eq_some.mpr ⟨hne, hall, hv, hrange⟩
    · exact signed_eq_some.mpr ⟨hne, hall, hv, hrange⟩
    · exact signed_eq_some.mpr ⟨hne, hall, hv, hrange⟩
  · intro h
    unfold int64Of at h
    split at h
    next digits =>
      obtain ⟨hne, hall, hv, hrange⟩ := signed_eq_some.mp h
      exact ⟨['+'], digits, rfl, by simp, hne, hall, hv, hrange⟩
    next digits =>
      obtain ⟨hne, hall, hv, hrange⟩ := signed_eq_some.mp h
      exact ⟨['-'], digits, rfl, by simp, hne, hall, hv, hrange⟩
    · obtain ⟨hne, hall, hv, hrange⟩ := signed_eq_some.mp h
      exact ⟨[], s, rfl, by simp, hne, hall, hv, hrange⟩

/-! ## The two builds -/

/-- The digits of `parse_i64_local`. -/
theorem digitsUpTo_signed (neg : Bool) (digits : Text) (hne : digits ≠ []) :
    (digitsUpTo (limit neg) 0 digits).map (fun n : Nat => if neg then -(n : Int) else n) =
      signed neg digits := by
  have hnine : 9 ≤ limit neg := by
    cases neg <;> decide
  rw [digitsUpTo_eq hnine digits 0 (Nat.zero_le _), signed, numeral]
  by_cases h : digits.all isdigit = true ∧ numeralFrom 0 digits ≤ limit neg
  · rw [if_pos h, if_pos ⟨hne, h⟩]
    rfl
  · rw [if_neg h, if_neg (fun hall => h hall.2)]
    rfl

/-- `parse_i64_local` behind the sign. -/
theorem parse_digits (neg : Bool) (digits : Text) :
    (if digits = [] then none
      else (digitsUpTo (limit neg) 0 digits >>= fun n => pure (n : Int)).map
        fun n => if neg then -n else n) = signed neg digits := by
  by_cases hne : digits = []
  · subst hne
    rfl
  · rw [if_neg hne, ← digitsUpTo_signed neg digits hne]
    cases digitsUpTo (limit neg) 0 digits with
    | none => rfl
    | some n => rfl

/-- **`parse_i64_local`**, in C. -/
theorem parseI64Local_eq (s : Text) : parseI64Local s = int64Of s := by
  by_cases hplus : s.head? = some '+'
  · obtain ⟨digits, rfl⟩ := List.head?_eq_some_iff.mp hplus
    exact parse_digits false digits
  · by_cases hminus : s.head? = some '-'
    · obtain ⟨digits, rfl⟩ := List.head?_eq_some_iff.mp hminus
      exact parse_digits true digits
    · have hp : (s.head? == some '+') = false := by simpa using hplus
      have hm : (s.head? == some '-') = false := by simpa using hminus
      rw [int64Of_unsigned hplus hminus, ← parse_digits false s]
      simp only [parseI64Local, hp, hm]
      rfl

/-- What `.Lhave_digits` returns and stores. -/
theorem haveDigits_eq (neg : Bool) (digits : Text) (out : BitVec 64) :
    haveDigits neg digits out =
      match signed neg digits with
      | some v => (0#32, BitVec.ofInt 64 v)
      | none => (-1#32, out) := by
  by_cases hne : digits = []
  · subst hne
    rfl
  · have hloop := loop_eq neg digits 0#64 (Nat.zero_le _)
    rw [← digitsUpTo_signed neg digits hne]
    cases hread : loop (lastDigit neg) 0#64 digits with
    | none =>
        rw [hread] at hloop
        have hnone : digitsUpTo (limit neg) 0 digits = none := hloop.symm
        rw [lastDigit] at hread
        simp only [haveDigits, if_neg hne, hread, hnone]
        rfl
    | some rcx =>
        rw [hread] at hloop
        have hsome : digitsUpTo (limit neg) 0 digits = some rcx.toNat := hloop.symm
        rw [lastDigit] at hread
        simp only [haveDigits, if_neg hne, hread, hsome]
        cases neg
        · simp
        · simp [BitVec.ofInt_neg]

/-- **`petrush_parse_i64`**, the assembly. -/
theorem petrushParseI64_eq (s : Text) (out : BitVec 64) :
    petrushParseI64 s out =
      match int64Of s with
      | some v => (0#32, BitVec.ofInt 64 v)
      | none => (-1#32, out) := by
  unfold petrushParseI64
  split
  · rfl
  · exact haveDigits_eq false _ out
  · exact haveDigits_eq true _ out
  next hplus hminus =>
    have hp : s.head? ≠ some '+' := by
      intro h
      obtain ⟨digits, rfl⟩ := List.head?_eq_some_iff.mp h
      exact hplus digits rfl
    have hm : s.head? ≠ some '-' := by
      intro h
      obtain ⟨digits, rfl⟩ := List.head?_eq_some_iff.mp h
      exact hminus digits rfl
    rw [int64Of_unsigned hp hm]
    exact haveDigits_eq false s out

/-- **Both builds read the integers of 64 bits**, and on any other text they return
`-1` and leave `*out` alone. -/
theorem parse_int64 (s : Text) (out : BitVec 64) :
    (∀ v, IsInt64 s v → parseI64Local s = some v ∧
      (petrushParseI64 s out).1 = 0#32 ∧ (petrushParseI64 s out).2.toInt = v) ∧
    ((∀ v, ¬ IsInt64 s v) → parseI64Local s = none ∧ petrushParseI64 s out = (-1#32, out)) := by
  rw [parseI64Local_eq, petrushParseI64_eq]
  constructor
  · intro v hv
    have hread := (isInt64_iff s v).mp hv
    obtain ⟨sign, digits, -, -, -, -, -, hmin, hmax⟩ := hv
    rw [hread]
    refine ⟨rfl, rfl, ?_⟩
    rw [BitVec.toInt_ofInt]
    exact Int.bmod_eq_of_le (by omega) (by omega)
  · intro hnot
    have hread : int64Of s = none := by
      cases hs : int64Of s with
      | none => rfl
      | some v => exact absurd ((isInt64_iff s v).mpr hs) (hnot v)
    rw [hread]
    exact ⟨rfl, rfl⟩

end Petrush.Verified.Integers
