import Petrush.Foundation.HashEq
import Petrush.Verified.Plugins

/-!
# The comparison of two hashes

The parser takes the digits two at a time and looks at neither before it has read both.
A string of hexadecimal digits that ends between two pairs is read past its terminator;
on every other string the parser is exact.

## Main results

* `parseSha256HexAt_eq` — what the loop reads, by the structure of the string.
* `scan_outside`, `scan_some` — when it leaves the string, and what it returns.
* `sha256HexEqAt_refines` — inside, the answer is the loader's.
* `exact_iff` — when the comparison stays inside its strings, and that it is right there.
-/

namespace Petrush.Verified.HexDigests

open Petrush.Asm.Memeq
open Petrush.Lib.CText
open Petrush.Lib.Cells
open Petrush.Foundation.PluginLoad
open Petrush.Foundation.HashEq
open Petrush.Verified.Plugins

/-! ## What a string denotes -/

/-- The value of a hexadecimal digit of either case. -/
def digitValue (c : Char) : Option Nat := "0123456789abcdef".toList.idxOf? c.toLower

/-- A hexadecimal digit. -/
def IsHex (c : Char) : Prop := (digitValue c).isSome = true

/-- Exactly 64 hexadecimal digits. -/
structure IsHash (s : Text) : Prop where
  length_eq : s.length = 64
  isHex : ∀ c ∈ s, IsHex c

/-- The bytes that pairs of digits denote. -/
inductive Denotes : Text → List UInt8 → Prop
  | nil : Denotes [] []
  | pair {a b : Char} {hi lo : Nat} {s : Text} {bytes : List UInt8} (ha : digitValue a = some hi)
      (hb : digitValue b = some lo) (hrest : Denotes s bytes) :
      Denotes (a :: b :: s) (UInt8.ofNat (16 * hi + lo) :: bytes)

/-- `hex_nibble` is the value of a digit. -/
theorem hexNibble_eq (c : Char) : hexNibble c = digitValue c := by
  have hascii : ∀ n < 128, hexNibble (Char.ofNat n) = digitValue (Char.ofNat n) := by decide +kernel
  by_cases hc : c.toNat < 128
  · have heq := hascii c.toNat hc
    rwa [Char.ofNat_toNat] at heq
  · have hlarge : ∀ d : Char, d.toNat < 128 → ¬ c ≤ d := by
      intro d hd hle
      have hnat : c.toNat ≤ d.toNat := hle
      omega
    have hlower : c.toLower = c := by
      rw [Char.toLower, dif_neg]
      rintro ⟨-, hle⟩
      exact hlarge 'Z' (by decide) hle
    have hnot : c ∉ "0123456789abcdef".toList := by
      intro hmem
      have hall : ("0123456789abcdef".toList.all fun d => d.toNat < 128) = true := by decide
      exact hc (by simpa using List.all_eq_true.mp hall c hmem)
    have h9 := hlarge '9' (by decide)
    have hf := hlarge 'f' (by decide)
    have hF := hlarge 'F' (by decide)
    rw [digitValue, hlower, List.idxOf?_eq_none_iff.mpr hnot, hexNibble, if_neg (fun h => h9 h.2),
      if_neg (fun h => hf h.2), if_neg (fun h => hF h.2)]

/-- The two halves of a byte. -/
theorem joinNibbles_eq {hi lo : Nat} (hlo : lo < 16) :
    joinNibbles hi lo = UInt8.ofNat (16 * hi + lo) := by
  rw [joinNibbles, Nat.shiftLeft_eq, Nat.mul_comm hi]
  congr 1
  exact (Nat.two_pow_add_eq_or_of_lt (i := 4) hlo hi).symm

/-- Letters of either case denote the same. -/
theorem Denotes.sameLetters {s t : Text} {bytes : List UInt8} (h : Denotes s bytes) :
    t.map Char.toLower = s.map Char.toLower → Denotes t bytes := by
  induction h generalizing t with
  | nil =>
      intro hmap
      rw [List.map_eq_nil_iff.mp hmap]
      exact .nil
  | pair ha hb hrest ih =>
      intro hmap
      match t with
      | [] => contradiction
      | [c] => simp at hmap
      | c :: d :: t =>
          simp only [List.map_cons, List.cons.injEq] at hmap
          obtain ⟨hc, hd, htail⟩ := hmap
          refine .pair ?_ ?_ (ih htail)
          · rwa [digitValue, hc]
          · rwa [digitValue, hd]

theorem Denotes.unique {s : Text} {bytes bytes' : List UInt8} (h : Denotes s bytes) :
    Denotes s bytes' → bytes = bytes' := by
  induction h generalizing bytes' with
  | nil =>
      intro h'
      cases h'
      rfl
  | pair ha hb hrest ih =>
      intro h'
      cases h' with
      | pair ha' hb' hrest' =>
          rw [Option.some.inj (ha.symm.trans ha'), Option.some.inj (hb.symm.trans hb'), ih hrest']

/-- Bytes are denoted by digits, two for each. -/
theorem Denotes.digits {s : Text} {bytes : List UInt8} (h : Denotes s bytes) :
    s.length = 2 * bytes.length ∧ ∀ c ∈ s, IsHex c := by
  induction h with
  | nil => exact ⟨rfl, fun c hc => absurd hc List.not_mem_nil⟩
  | @pair a b hi lo s bytes ha hb hrest ih =>
      refine ⟨?_, ?_⟩
      · simp only [List.length_cons, ih.1]
        omega
      · intro c hc
        simp only [List.mem_cons] at hc
        rcases hc with rfl | rfl | hc
        · exact Option.isSome_of_eq_some ha
        · exact Option.isSome_of_eq_some hb
        · exact ih.2 c hc

/-- A printed digest denotes its bytes. -/
theorem denotes_digits (bytes : List UInt8) :
    Denotes (bytes.flatMap fun b => [hexDigit (b.toNat / 16), hexDigit (b.toNat % 16)]) bytes := by
  induction bytes with
  | nil => exact .nil
  | cons b bytes ih =>
      have hb : b.toNat < 256 := b.toNat_lt
      have hhi := hexNibble_hexDigit (b.toNat / 16) (by omega)
      have hlo := hexNibble_hexDigit (b.toNat % 16) (by omega)
      rw [hexNibble_eq] at hhi hlo
      have hpair := Denotes.pair hhi hlo ih
      have hbyte : 16 * (b.toNat / 16) + b.toNat % 16 = b.toNat := by omega
      rw [hbyte, UInt8.ofNat_toNat] at hpair
      exact hpair

/-! ## The loop -/

/-- What the loop does, by the structure of what is left of the string. -/
def scan : Nat → Text → Except Fault (Option (List UInt8))
  | 0, s => .ok (if s = [] then some [] else none)
  | _ + 1, [] => .error .outside
  | _ + 1, [_] => .ok none
  | left + 1, a :: b :: s =>
      match digitValue a, digitValue b with
      | some hi, some lo => (scan left s).map (Option.map (UInt8.ofNat (16 * hi + lo) :: ·))
      | _, _ => .ok none

theorem read_terminator (before : Text) : read (before ++ [nul]) before.length = .ok nul :=
  read_append before [] nul

theorem read_past (before : Text) :
    read (before ++ [nul]) (before.length + 1) = .error .outside := by
  rw [Lib.Cells.read, List.getElem?_eq_none (by simp)]

/-- **The loop by the structure of the string.** -/
theorem parseLoop_eq {left : Nat} : ∀ {before s : Text} {i : Nat} (out : List UInt8), nul ∉ s →
    before.length = i * 2 → i + left = sha256Len →
    parseLoop (before ++ s ++ [nul]) left i out = (scan left s).map (Option.map (out ++ ·)) := by
  induction left with
  | zero =>
      intro before s i out hnul hbefore hleft
      have hend : sha256HexLen = before.length := by
        rw [hbefore]
        have hlen : i = 32 := hleft
        rw [hlen]
        rfl
      cases s with
      | nil =>
          rw [List.append_nil, parseLoop, hend, read_terminator]
          simp [bind, Except.bind, pure, Except.pure, scan, Except.map]
      | cons c s =>
          have hc : c ≠ nul := fun heq => hnul (heq ▸ List.mem_cons_self)
          have hsplit : before ++ c :: s ++ [nul] = before ++ c :: (s ++ [nul]) := by simp
          rw [hsplit, parseLoop, hend, read_append]
          simp [bind, Except.bind, pure, Except.pure, scan, Except.map, hc]
  | succ left ih =>
      intro before s i out hnul hbefore hleft
      match s with
      | [] =>
          rw [List.append_nil, parseLoop, ← hbefore, read_terminator, read_past]
          rfl
      | [a] =>
          have hsplit : before ++ [a] ++ [nul] = before ++ a :: [nul] := by simp
          have hsecond : before.length + 1 = (before ++ [a]).length := by simp
          have hnone : hexNibble nul = none := by decide
          rw [parseLoop, ← hbefore, hsecond, read_terminator, hsplit, read_append]
          simp only [bind, Except.bind, hnone]
          cases hexNibble a <;> rfl
      | a :: b :: s =>
          have hsplit : before ++ a :: b :: s ++ [nul] = before ++ a :: (b :: s ++ [nul]) := by simp
          have hsplit' : before ++ a :: b :: s ++ [nul] =
              (before ++ [a]) ++ b :: (s ++ [nul]) := by simp
          have hsecond : before.length + 1 = (before ++ [a]).length := by simp
          have hfirst : read (before ++ a :: b :: s ++ [nul]) before.length = .ok a := by
            rw [hsplit, read_append]
          have hnext : read (before ++ a :: b :: s ++ [nul]) (before.length + 1) = .ok b := by
            rw [hsplit', hsecond, read_append]
          rw [parseLoop, ← hbefore, hfirst, hnext]
          simp only [bind, Except.bind, scan, hexNibble_eq]
          cases ha : digitValue a with
          | none => rfl
          | some hi =>
              cases hb : digitValue b with
              | none => rfl
              | some lo =>
                  have hlo : lo < 16 := hexNibble_lt ((hexNibble_eq b).trans hb)
                  have hmore : before ++ a :: b :: s = (before ++ [a, b]) ++ s := by simp
                  have htail : nul ∉ s := fun hmem => hnul (by simp [hmem])
                  have hlen : (before ++ [a, b]).length = (i + 1) * 2 := by
                    rw [List.length_append, hbefore]
                    simp only [List.length_cons, List.length_nil]
                    omega
                  dsimp only
                  rw [hmore, ih _ htail hlen (by omega), joinNibbles_eq hlo]
                  cases scan left s with
                  | error fault => rfl
                  | ok bytes => cases bytes <;> simp [Except.map]

/-- `parse_sha256_hex`. -/
theorem parseSha256HexAt_eq (s : CString) : parseSha256HexAt s = scan 32 s.text := by
  have hloop : parseLoop ([] ++ s.text ++ [nul]) 32 0 [] = (scan 32 s.text).map (Option.map ([] ++ ·)) :=
    parseLoop_eq [] s.nul_notMem rfl rfl
  rw [parseSha256HexAt, CString.cells]
  refine hloop.trans ?_
  cases scan 32 s.text with
  | error fault => rfl
  | ok bytes => cases bytes <;> rfl

/-- A string of digits that ends between two pairs, too early. -/
structure EndsBetween (n : Nat) (s : Text) : Prop where
  length_lt : s.length < 2 * n
  even : Even s.length
  isHex : ∀ c ∈ s, IsHex c

theorem endsBetween_pair {n : Nat} {a b : Char} {s : Text} :
    EndsBetween (n + 1) (a :: b :: s) ↔ IsHex a ∧ IsHex b ∧ EndsBetween n s := by
  constructor
  · rintro ⟨hlen, heven, hhex⟩
    refine ⟨hhex a (by simp), hhex b (by simp), ?_, ?_, fun c hc => hhex c (by simp [hc])⟩
    · simp only [List.length_cons] at hlen
      omega
    · simp only [List.length_cons] at heven
      rw [Nat.even_iff] at heven ⊢
      omega
  · rintro ⟨ha, hb, hlen, heven, hhex⟩
    refine ⟨?_, ?_, ?_⟩
    · simp only [List.length_cons]
      omega
    · simp only [List.length_cons]
      rw [Nat.even_iff] at heven ⊢
      omega
    · intro c hc
      simp only [List.mem_cons] at hc
      rcases hc with rfl | rfl | hc
      · exact ha
      · exact hb
      · exact hhex c hc

/-- **When the loop leaves the string.** -/
theorem scan_error (n : Nat) (s : Text) (fault : Fault) :
    scan n s = .error fault ↔ fault = .outside ∧ EndsBetween n s := by
  induction n, s using scan.induct with
  | case1 s =>
      refine ⟨fun h => by simp [scan] at h, fun h => ?_⟩
      exact absurd h.2.length_lt (Nat.not_lt_zero _)
  | case2 n =>
      have hends : EndsBetween (n + 1) [] := ⟨by simp, by simp, by simp⟩
      simp [scan, hends, eq_comm]
  | case3 n a =>
      refine ⟨fun h => by simp [scan] at h, fun h => ?_⟩
      exact absurd h.2.even Nat.not_even_one
  | case4 n a b s hi lo hb ha ih =>
      have hA : IsHex a := Option.isSome_of_eq_some ha
      have hB : IsHex b := Option.isSome_of_eq_some hb
      rw [endsBetween_pair, and_iff_right hA, and_iff_right hB, ← ih, scan, ha, hb]
      cases scan n s with
      | error fault' => simp [Except.map]
      | ok bytes => simp [Except.map]
  | case5 n a b s hnone =>
      refine ⟨fun h => ?_, fun h => ?_⟩
      · rw [scan] at h
        split at h
        next hi lo ha hb => exact absurd hb (hnone hi lo ha)
        next => contradiction
      · obtain ⟨hA, hB, -⟩ := endsBetween_pair.mp h.2
        obtain ⟨hi, ha⟩ := Option.isSome_iff_exists.mp hA
        obtain ⟨lo, hb⟩ := Option.isSome_iff_exists.mp hB
        exact absurd hb (hnone hi lo ha)

/-- **What it returns.** -/
theorem scan_some (n : Nat) (s : Text) (bytes : List UInt8) :
    scan n s = .ok (some bytes) ↔ bytes.length = n ∧ Denotes s bytes := by
  induction n, s using scan.induct generalizing bytes with
  | case1 s =>
      rw [scan]
      constructor
      · intro h
        split at h
        next hnil =>
          subst hnil
          obtain rfl : [] = bytes := by simpa using h
          exact ⟨rfl, .nil⟩
        next => simp at h
      · rintro ⟨hlen, hdenotes⟩
        obtain rfl := List.length_eq_zero_iff.mp hlen
        cases hdenotes
        rfl
  | case2 n =>
      refine ⟨fun h => by simp [scan] at h, ?_⟩
      rintro ⟨hlen, hdenotes⟩
      cases hdenotes
      contradiction
  | case3 n a =>
      refine ⟨fun h => by simp [scan] at h, ?_⟩
      rintro ⟨-, hdenotes⟩
      cases hdenotes
  | case4 n a b s hi lo hb ha ih =>
      rw [scan, ha, hb]
      constructor
      · intro h
        obtain ⟨r, hr, hmap⟩ : ∃ r, scan n s = .ok r ∧
            r.map (UInt8.ofNat (16 * hi + lo) :: ·) = some bytes := by
          cases hr : scan n s with
          | error fault => simp [hr, Except.map] at h
          | ok r => exact ⟨r, rfl, by simpa [hr, Except.map] using h⟩
        obtain ⟨rest, rfl, rfl⟩ := Option.map_eq_some_iff.mp hmap
        obtain ⟨hlen, hrest⟩ := (ih rest).mp hr
        exact ⟨by rw [List.length_cons, hlen], .pair ha hb hrest⟩
      · rintro ⟨hlen, hdenotes⟩
        cases hdenotes with
        | @pair _ _ hi' lo' _ rest ha' hb' hrest =>
            have hscan := (ih rest).mpr ⟨Nat.succ.inj hlen, hrest⟩
            rw [Option.some.inj (ha.symm.trans ha'), Option.some.inj (hb.symm.trans hb')]
            simp [hscan, Except.map]
  | case5 n a b s hnone =>
      constructor
      · intro h
        rw [scan] at h
        split at h
        next hi lo ha hb => exact absurd hb (hnone hi lo ha)
        next => simp at h
      · rintro ⟨-, hdenotes⟩
        cases hdenotes with
        | pair ha hb hrest => exact absurd hb (hnone _ _ ha)

/-- A hash denotes 32 bytes. -/
theorem isHash_iff {s : Text} : IsHash s ↔ ∃ bytes, scan 32 s = .ok (some bytes) := by
  have hpairs : ∀ (n : Nat) (s : Text), s.length = 2 * n → (∀ c ∈ s, IsHex c) →
      ∃ bytes, scan n s = .ok (some bytes) := by
    intro n s
    induction n, s using scan.induct with
    | case1 s =>
        intro hlen _
        obtain rfl := List.length_eq_zero_iff.mp hlen
        exact ⟨[], rfl⟩
    | case2 n =>
        intro hlen _
        simp only [List.length_nil] at hlen
        omega
    | case3 n a =>
        intro hlen _
        simp only [List.length_cons, List.length_nil] at hlen
        omega
    | case4 n a b s hi lo hb ha ih =>
        intro hlen hhex
        simp only [List.length_cons] at hlen
        obtain ⟨bytes, hbytes⟩ := ih (by omega) fun c hc => hhex c (by simp [hc])
        exact ⟨_, by rw [scan, ha, hb, hbytes]; rfl⟩
    | case5 n a b s hnone =>
        intro _ hhex
        obtain ⟨hi, ha⟩ := Option.isSome_iff_exists.mp (hhex a (by simp))
        obtain ⟨lo, hb⟩ := Option.isSome_iff_exists.mp (hhex b (by simp))
        exact absurd hb (hnone hi lo ha)
  constructor
  · intro h
    exact hpairs 32 s h.length_eq h.isHex
  · rintro ⟨bytes, hbytes⟩
    obtain ⟨hlen, hdenotes⟩ := (scan_some 32 s bytes).mp hbytes
    obtain ⟨hdigits, hhex⟩ := hdenotes.digits
    exact ⟨by rw [hdigits, hlen], hhex⟩

/-- Inside the string the loader's own parser returns the same. -/
theorem parseHexBytes_of_scan (n : Nat) (s : Text) (r : Option (List UInt8)) :
    scan n s = .ok r → parseHexBytes n s = r := by
  induction n, s using scan.induct generalizing r with
  | case1 s =>
      intro h
      obtain rfl : (if s = [] then some [] else none) = r := by simpa [scan] using h
      cases s <;> simp [parseHexBytes]
  | case2 n =>
      intro h
      simp [scan] at h
  | case3 n a =>
      intro h
      obtain rfl : none = r := by simpa [scan] using h
      rfl
  | case4 n a b s hi lo hb ha ih =>
      intro h
      rw [scan, ha, hb] at h
      cases hs : scan n s with
      | error fault => simp [hs, Except.map] at h
      | ok rest =>
          obtain rfl : rest.map (UInt8.ofNat (16 * hi + lo) :: ·) = r := by
            simpa [hs, Except.map] using h
          rw [parseHexBytes, hexNibble_eq, hexNibble_eq, ha, hb, ih rest hs]
          cases rest <;> rfl
  | case5 n a b s hnone =>
      intro h
      have hscan : scan (n + 1) (a :: b :: s) = .ok none := by
        rw [scan]
        split
        next hi lo ha hb => exact absurd hb (hnone hi lo ha)
        next => rfl
      obtain rfl : none = r := Except.ok.inj (hscan.symm.trans h)
      rw [parseHexBytes, hexNibble_eq, hexNibble_eq]
      cases ha : digitValue a with
      | none => rfl
      | some hi =>
          cases hb : digitValue b with
          | none => rfl
          | some lo => exact absurd hb (hnone hi lo ha)

/-! ## The comparison -/

/-- Two digests are compared byte by byte. -/
theorem ctMemEq_eq {a b : List UInt8} (hlen : a.length = b.length) :
    ctMemEq a b = if a = b then 0 else 1 := by
  have hall : (∀ pair ∈ (a.zip b).map fun pair => (pair.1.toBitVec, pair.2.toBitVec),
      pair.1 = pair.2) ↔ a = b := by
    induction a generalizing b with
    | nil =>
        obtain rfl := List.length_eq_zero_iff.mp hlen.symm
        simp
    | cons x a ih =>
        cases b with
        | nil => contradiction
        | cons y b =>
            have htail := ih (Nat.succ.inj hlen)
            rw [List.zip_cons_cons, List.map_cons, List.forall_mem_cons, htail, List.cons.injEq,
              UInt8.toBitVec_inj]
  rw [ctMemEq, petrushMemeqCt_eq]
  by_cases heq : a = b
  · rw [if_pos (hall.mpr heq), if_pos heq]
    rfl
  · rw [if_neg (mt hall.mp heq), if_neg heq]
    rfl

/-- **The loader's own comparison** is the one that stays inside. -/
theorem sha256HexEqAt_refines {a b : CString} {code : Int} (h : sha256HexEqAt a b = .ok code) :
    sha256HexEq a.text b.text = code := by
  rw [sha256HexEqAt, parseSha256HexAt_eq, parseSha256HexAt_eq] at h
  cases ha : scan 32 a.text with
  | error fault =>
      rw [ha] at h
      contradiction
  | ok ra =>
      rw [ha] at h
      have hA : parseSha256Hex a.text = ra := parseHexBytes_of_scan _ _ _ ha
      cases ra with
      | none =>
          obtain rfl : -1 = code := Except.ok.inj h
          rw [sha256HexEq, hA]
      | some da =>
          cases hb : scan 32 b.text with
          | error fault =>
              rw [hb] at h
              contradiction
          | ok rb =>
              rw [hb] at h
              have hB : parseSha256Hex b.text = rb := parseHexBytes_of_scan _ _ _ hb
              cases rb with
              | none =>
                  obtain rfl : -1 = code := Except.ok.inj h
                  rw [sha256HexEq, hA, hB]
              | some db =>
                  obtain rfl : ctMemEq da db = code := Except.ok.inj h
                  have hda := ((scan_some _ _ _).mp ha).1
                  have hdb := ((scan_some _ _ _).mp hb).1
                  rw [sha256HexEq, hA, hB, ctMemEq_eq (hda.trans hdb.symm)]

/-- What the comparison promises of two strings: it reads inside them, says -1 exactly when
one is no hash, and else 0 exactly when they denote the same bytes. -/
def Exact (a b : CString) : Prop :=
  ∃ code, sha256HexEqAt a b = .ok code ∧ (code = -1 ↔ ¬ (IsHash a.text ∧ IsHash b.text)) ∧
    (IsHash a.text → IsHash b.text →
      (code = 0 ↔ ∃ bytes, Denotes a.text bytes ∧ Denotes b.text bytes))

/-- Both strings are hashes. -/
theorem eq_of_hashes {a b : CString} {da db : List UInt8} (ha : scan 32 a.text = .ok (some da))
    (hb : scan 32 b.text = .ok (some db)) :
    sha256HexEqAt a b = .ok (if da = db then 0 else 1) := by
  have hda := ((scan_some _ _ _).mp ha).1
  have hdb := ((scan_some _ _ _).mp hb).1
  rw [sha256HexEqAt, parseSha256HexAt_eq, parseSha256HexAt_eq, ha, hb,
    ← ctMemEq_eq (hda.trans hdb.symm)]
  rfl

theorem exact_of_hashes {a b : CString} {da db : List UInt8}
    (ha : scan 32 a.text = .ok (some da)) (hb : scan 32 b.text = .ok (some db)) : Exact a b := by
  have hda := ((scan_some _ _ _).mp ha).2
  have hdb := ((scan_some _ _ _).mp hb).2
  have hboth : IsHash a.text ∧ IsHash b.text := ⟨isHash_iff.mpr ⟨da, ha⟩, isHash_iff.mpr ⟨db, hb⟩⟩
  refine ⟨_, eq_of_hashes ha hb, ?_, fun _ _ => ?_⟩
  · refine ⟨fun hcode => ?_, fun hnot => absurd hboth hnot⟩
    split_ifs at hcode
  · constructor
    · intro hcode
      split_ifs at hcode with heq
      · exact ⟨da, hda, heq ▸ hdb⟩
      · omega
    · rintro ⟨bytes, hA, hB⟩
      rw [hda.unique hA, hdb.unique hB, if_pos rfl]

/-- One of them is not. -/
theorem exact_of_refused {a b : CString} (heq : sha256HexEqAt a b = .ok (-1))
    (hnot : ¬ (IsHash a.text ∧ IsHash b.text)) : Exact a b :=
  ⟨-1, heq, ⟨fun _ => hnot, fun _ => rfl⟩, fun hA hB => absurd ⟨hA, hB⟩ hnot⟩

theorem not_isHash_of_scan_none {s : Text} (h : scan 32 s = .ok none) : ¬ IsHash s := by
  intro hash
  obtain ⟨bytes, hbytes⟩ := isHash_iff.mp hash
  rw [h] at hbytes
  simp at hbytes

/-- **When the comparison keeps its promise.**  For all strings: exactly when the first
does not end too early between two pairs of digits, and the second neither, unless the
first is no hash.  And a printed digest equals every spelling of it. -/
theorem exact_iff (a b : CString) (dig : Digest) :
    (Exact a b ↔ ¬ EndsBetween 32 a.text ∧ (IsHash a.text → ¬ EndsBetween 32 b.text)) ∧
    (a.text = sha256ToHex dig → b.text.map Char.toLower = a.text.map Char.toLower →
      sha256HexEqAt a b = .ok 0 ∧ sha256HexEqAt b a = .ok 0) := by
  constructor
  · cases ha : scan 32 a.text with
    | error fault =>
        obtain ⟨-, hends⟩ := (scan_error _ _ _).mp ha
        refine ⟨?_, fun h => absurd hends h.1⟩
        rintro ⟨code, hcode, -⟩
        rw [sha256HexEqAt, parseSha256HexAt_eq, ha] at hcode
        contradiction
    | ok ra =>
        have hinside : ¬ EndsBetween 32 a.text := by
          intro hends
          rw [(scan_error 32 a.text .outside).mpr ⟨rfl, hends⟩] at ha
          contradiction
        rw [and_iff_right hinside]
        cases ra with
        | none =>
            have hno := not_isHash_of_scan_none ha
            refine ⟨fun _ hash => absurd hash hno, fun _ => ?_⟩
            refine exact_of_refused ?_ fun h => hno h.1
            rw [sha256HexEqAt, parseSha256HexAt_eq, ha]
            rfl
        | some da =>
            have hash : IsHash a.text := isHash_iff.mpr ⟨da, ha⟩
            cases hb : scan 32 b.text with
            | error fault =>
                obtain ⟨-, hends⟩ := (scan_error _ _ _).mp hb
                refine ⟨?_, fun h => absurd hends (h hash)⟩
                rintro ⟨code, hcode, -⟩
                rw [sha256HexEqAt, parseSha256HexAt_eq, parseSha256HexAt_eq, ha, hb] at hcode
                contradiction
            | ok rb =>
                refine ⟨fun _ _ hends => ?_, fun _ => ?_⟩
                · rw [(scan_error 32 b.text .outside).mpr ⟨rfl, hends⟩] at hb
                  contradiction
                · cases rb with
                  | some db => exact exact_of_hashes ha hb
                  | none =>
                      have hno := not_isHash_of_scan_none hb
                      refine exact_of_refused ?_ fun h => hno h.2
                      rw [sha256HexEqAt, parseSha256HexAt_eq, parseSha256HexAt_eq, ha, hb]
                      rfl
  · intro htext hletters
    have hdenotes : Denotes a.text dig.bytes := by
      rw [htext]
      exact denotes_digits dig.bytes
    have ha := (scan_some 32 _ _).mpr ⟨dig.length_eq, hdenotes⟩
    have hb := (scan_some 32 _ _).mpr ⟨dig.length_eq, hdenotes.sameLetters hletters⟩
    have hab := eq_of_hashes ha hb
    have hba := eq_of_hashes hb ha
    rw [if_pos rfl] at hab hba
    exact ⟨hab, hba⟩

/-- A digest, printed, and the same in capitals. -/
theorem exact_iff_capitals :
    sha256HexEqAt ⟨(List.replicate 32 ['a', 'b']).flatten, by decide⟩
      ⟨(List.replicate 32 ['A', 'B']).flatten, by decide⟩ = .ok 0 :=
  ((exact_iff ⟨(List.replicate 32 ['a', 'b']).flatten, by decide⟩
    ⟨(List.replicate 32 ['A', 'B']).flatten, by decide⟩ ⟨List.replicate 32 0xab, by decide⟩).2
    (by decide) (by decide)).1

/-- **The empty string is read past its terminator.** -/
theorem terminator_passed :
    sha256HexEqAt ⟨[], by decide⟩ ⟨[], by decide⟩ = .error .outside ∧
      ¬ Exact ⟨[], by decide⟩ ⟨[], by decide⟩ := by
  refine ⟨rfl, ?_⟩
  rintro ⟨code, hcode, -⟩
  contradiction

end Petrush.Verified.HexDigests
