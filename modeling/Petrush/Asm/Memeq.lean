import Mathlib

/-!
# `petrush_memeq_ct` (`asm/memeq_ct.S`)

The routine on its registers.  `rdi`, `rsi` and `rdx`, the pairs of bytes still to be
read, are a list.

## Main results

* `petrushMemeqCt_eq` — 0 for equal bytes, 1 else.
-/

namespace Petrush.Asm.Memeq

/-- `.Lloop`: what the differences have left in `eax`. -/
def loop : BitVec 32 → List (BitVec 8 × BitVec 8) → BitVec 32
  | eax, [] => eax
  | eax, pair :: rest =>
      let ecx := pair.1.zeroExtend 32
      let r8d := pair.2.zeroExtend 32
      loop (eax ||| (ecx ^^^ r8d)) rest

/-- `negl`, `sbbl`, `negl`: the carry of the first is whether its operand is not 0. -/
def normalize (eax : BitVec 32) : BitVec 32 :=
  let carry : BitVec 32 := if eax = 0#32 then 0#32 else 1#32
  let eax := -eax
  let eax := eax - eax - carry
  let eax := -eax
  eax

/-- `petrush_memeq_ct`. -/
def petrushMemeqCt (pairs : List (BitVec 8 × BitVec 8)) : BitVec 32 :=
  if pairs = [] then 0#32 else normalize (loop 0#32 pairs)

theorem normalize_eq (eax : BitVec 32) : normalize eax = if eax = 0#32 then 0#32 else 1#32 := by
  unfold normalize
  split
  next h =>
    subst h
    rfl
  next =>
    simp only [BitVec.sub_self]
    rfl

theorem loop_eq_zero (pairs : List (BitVec 8 × BitVec 8)) : ∀ eax : BitVec 32,
    loop eax pairs = 0#32 ↔ eax = 0#32 ∧ ∀ pair ∈ pairs, pair.1 = pair.2 := by
  induction pairs with
  | nil =>
      intro eax
      simp [loop]
  | cons pair rest ih =>
      intro eax
      have hpair : pair.1.zeroExtend 32 ^^^ pair.2.zeroExtend 32 = 0#32 ↔ pair.1 = pair.2 := by
        rw [BitVec.xor_eq_zero_iff]
        constructor
        · intro heq
          apply BitVec.eq_of_toNat_eq
          have hnat := congrArg BitVec.toNat heq
          rwa [BitVec.toNat_setWidth_of_le (by decide), BitVec.toNat_setWidth_of_le (by decide)]
            at hnat
        · intro heq
          rw [heq]
      rw [loop, ih, BitVec.or_eq_zero_iff, hpair, List.forall_mem_cons, and_assoc]

/-- **The comparison.** -/
theorem petrushMemeqCt_eq (pairs : List (BitVec 8 × BitVec 8)) :
    petrushMemeqCt pairs = if ∀ pair ∈ pairs, pair.1 = pair.2 then 0#32 else 1#32 := by
  unfold petrushMemeqCt
  split
  next hnil =>
    subst hnil
    simp
  next =>
    rw [normalize_eq]
    exact if_congr (by rw [loop_eq_zero]; simp) rfl rfl

end Petrush.Asm.Memeq
