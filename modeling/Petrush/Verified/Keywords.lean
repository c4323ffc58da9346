import Petrush.Verified.Segments

/-!
# Reserved words at the cursor

When `match_kw_at` and the marks `{`, `}`, `;;` match at a printed token, and
when they do not.  A token is read from a cursor as `t ++ r` with `r` at the
end or at a blank.
-/

namespace Petrush.Verified.Keywords

open Petrush.Lib.CText
open Petrush.Mid.Ast
open Petrush.Mid.Lexer
open Petrush.Mid.Parser
open Petrush.Verified.Scanning
open Petrush.Verified.Surface
open Petrush.Verified.Segments

/-! ## The cursor -/

@[simp] theorem advance_append (t r b : Text) :
    Cursor.advance t.length ⟨b, t ++ r⟩ = ⟨t.reverse ++ b, r⟩ := by
  induction t generalizing b with
  | nil => rfl
  | cons c t ih => simpa [Cursor.advance] using ih (c :: b)

theorem advance_append_add (t r b : Text) (n : Nat) :
    Cursor.advance (t.length + n) ⟨b, t ++ r⟩ = Cursor.advance n ⟨t.reverse ++ b, r⟩ := by
  induction t generalizing b with
  | nil => simp
  | cons c t ih =>
      rw [List.length_cons, Nat.add_right_comm, List.cons_append]
      simpa [Cursor.advance] using ih (c :: b)

@[simp] theorem skipWsPos_blank (b s : Text) : skipWsPos ⟨b, ' ' :: s⟩ = skipWsPos ⟨' ' :: b, s⟩ :=
  rfl

@[simp] theorem skipWsPos_nil (b : Text) : skipWsPos ⟨b, []⟩ = ⟨b, []⟩ := rfl

/-- The token begins with something other than a blank. -/
def Starts (t : Text) : Prop := ∃ c s, t = c :: s ∧ isspace c = false

theorem skipWsPos_starts {t : Text} (h : Starts t) (b r : Text) :
    skipWsPos ⟨b, t ++ r⟩ = ⟨b, t ++ r⟩ := by
  obtain ⟨c, s, rfl, hc⟩ := h
  simp [skipWsPos, skipWsFrom, hc]

/-! ## Keywords -/

/-- A character that does not end a reserved word. -/
def isTokChar (c : Char) : Bool :=
  !isspace c && c != ';' && c != '&' && c != '|' && c != '<' && c != '>'

/-- A token that a reserved word can be compared with as a whole. -/
def isPlainTok (t : Text) : Bool := !t.isEmpty && t.all isTokChar

theorem isTokChar_of_isWordChar {c : Char} (h : isWordChar c = true) : isTokChar c = true := by
  obtain ⟨hsp, -, -, hsc, hp, ha, hl, hg, -⟩ := (isWordChar_iff c).mp h
  simp [isTokChar, hsp, hsc, hp, ha, hl, hg]

theorem isPlainTok_iff (t : Text) :
    isPlainTok t = true ↔ t ≠ [] ∧ ∀ c ∈ t, isTokChar c = true := by
  simp [isPlainTok, List.isEmpty_eq_false_iff]

theorem starts_of_isPlainTok {t : Text} (h : isPlainTok t = true) : Starts t := by
  obtain ⟨hne, hall⟩ := (isPlainTok_iff t).mp h
  cases t with
  | nil => contradiction
  | cons c s =>
      have hc := hall c (by simp)
      simp only [isTokChar, Bool.and_eq_true, Bool.not_eq_true'] at hc
      exact ⟨c, s, rfl, hc.1.1.1.1.1⟩

private theorem kwDelim_of_atBlank {r : Text} (h : AtBlank r) : kwDelim r = true := by
  rcases h with rfl | ⟨r, rfl⟩ <;> rfl

private theorem kwDelim_of_isTokChar {c : Char} (s : Text) (h : isTokChar c = true) :
    kwDelim (c :: s) = false := by
  simp only [isTokChar, Bool.and_eq_true, Bool.not_eq_true', bne_iff_ne, ne_eq] at h
  simp [kwDelim, h]

@[simp] theorem matchKwAt_blank (kw b s : Text) :
    matchKwAt kw ⟨b, ' ' :: s⟩ = matchKwAt kw ⟨' ' :: b, s⟩ := rfl

/-- A reserved word matches itself. -/
theorem matchKwAt_self (kw : Text) (h : Starts kw) (b r : Text) (hr : AtBlank r) :
    matchKwAt kw ⟨b, kw ++ r⟩ = some ⟨kw.reverse ++ b, r⟩ := by
  simp [matchKwAt, skipWsPos_starts h, kwDelim_of_atBlank hr]

/-- The reserved word `kw` does not match at the token `t`. -/
def Misses (t kw : Text) : Prop :=
  ∀ b r, AtBlank r → matchKwAt kw ⟨b, t ++ r⟩ = none

/-- Two different plain tokens.  Either the token goes on where the reserved word
ends, or the word would have to hold the blank after the token. -/
theorem misses_of_ne {t kw : Text} (ht : isPlainTok t = true) (hkw : isPlainTok kw = true)
    (hne : t ≠ kw) : Misses t kw := by
  intro b r hr
  obtain ⟨-, htall⟩ := (isPlainTok_iff t).mp ht
  obtain ⟨-, hkall⟩ := (isPlainTok_iff kw).mp hkw
  have hfalse : ¬ (kw.isPrefixOf (t ++ r) = true ∧ kwDelim ((t ++ r).drop kw.length) = true) := by
    rintro ⟨hpre, hdelim⟩
    rcases List.prefix_or_prefix_of_prefix (List.isPrefixOf_iff_prefix.mp hpre)
      (List.prefix_append t r) with ⟨u, hu⟩ | ⟨v, hv⟩
    · cases u with
      | nil => exact hne (by simpa using hu.symm)
      | cons c u =>
          have hc := htall c (by simp [← hu])
          rw [← hu, List.append_assoc, List.drop_left, List.cons_append,
            kwDelim_of_isTokChar _ hc] at hdelim
          contradiction
    · cases v with
      | nil => exact hne (by simpa using hv)
      | cons c v =>
          have hc := hkall c (by simp [← hv])
          have hcr : c :: v <+: r := by
            have hpre := List.isPrefixOf_iff_prefix.mp hpre
            rwa [← hv, List.prefix_append_right_inj] at hpre
          rcases hr with rfl | ⟨r, rfl⟩
          · simp at hcr
          · rw [(List.cons_prefix_cons.mp hcr).1] at hc
            contradiction
  simp only [matchKwAt, skipWsPos_starts (starts_of_isPlainTok ht)]
  exact if_neg hfalse

/-- A token that begins with another character. -/
theorem misses_of_head {c k : Char} {s kw : Text} (hsp : isspace c = false) (hne : c ≠ k) :
    Misses (c :: s) (k :: kw) := by
  intro b r hr
  have hskip := skipWsPos_starts (t := c :: s) ⟨c, s, rfl, hsp⟩ b r
  have hfalse : (k :: kw).isPrefixOf (c :: s ++ r) = false := by
    simp [List.isPrefixOf, Ne.symm hne]
  simp only [matchKwAt, hskip, hfalse, Bool.false_eq_true, false_and, if_false]

/-- What reserved words begin with. -/
def isKwHead (c : Char) : Bool := "itefwdc[]!".toList.contains c

private theorem reserved_shape :
    ∀ kw ∈ reserved, isPlainTok kw = true ∧ kw.head?.any isKwHead = true := by
  decide

theorem misses_of_not_isKwHead {c : Char} {s : Text} (hsp : isspace c = false)
    (hc : isKwHead c = false) : ∀ kw ∈ reserved, Misses (c :: s) kw := by
  intro kw hkw
  have hhead := (reserved_shape kw hkw).2
  cases kw with
  | nil => simp at hhead
  | cons k kw =>
      refine misses_of_head hsp ?_
      rintro rfl
      have hk : isKwHead c = true := by simpa using hhead
      rw [hc] at hk
      contradiction

theorem isPlainTok_bare {s : Text} (hne : s ≠ []) (h : ∀ c ∈ s, isWordChar c = true) :
    isPlainTok s = true :=
  (isPlainTok_iff s).mpr ⟨hne, fun c hc => isTokChar_of_isWordChar (h c hc)⟩

/-- No reserved word matches at a word. -/
theorem misses_word (w : SWord) : ∀ kw ∈ reserved, Misses w.print kw := by
  cases w with
  | single s hne h => exact misses_of_not_isKwHead (by decide) (by decide)
  | double s hne h => exact misses_of_not_isKwHead (by decide) (by decide)
  | bare s hne h hres =>
      intro kw hkw
      refine misses_of_ne (isPlainTok_bare hne h) (reserved_shape kw hkw).1 ?_
      rintro rfl
      exact hres hkw

/-- No reserved word matches at an operator. -/
theorem misses_op (k : TokKind) : ∀ kw ∈ reserved, Misses (opText k) kw := by
  cases k <;> exact misses_of_not_isKwHead (by decide) (by decide)

theorem starts_word (w : SWord) : Starts w.print := print_head_not_blank (.word w)

/-! ## Marks and stop keywords -/

@[simp] theorem matchMarkAt_blank (mark b s : Text) :
    matchMarkAt mark ⟨b, ' ' :: s⟩ = matchMarkAt mark ⟨' ' :: b, s⟩ := rfl

theorem matchMarkAt_self {mark : Text} (h : Starts mark) (b r : Text) :
    matchMarkAt mark ⟨b, mark ++ r⟩ = some ⟨mark.reverse ++ b, r⟩ := by
  simp [matchMarkAt, skipWsPos_starts h]

theorem matchMarkAt_of_head {c m : Char} {s mark b : Text} (hsp : isspace c = false)
    (hne : c ≠ m) : matchMarkAt (m :: mark) ⟨b, c :: s⟩ = none := by
  have hskip := skipWsPos_starts (t := [c]) ⟨c, [], rfl, hsp⟩ b s
  rw [List.singleton_append] at hskip
  simp [matchMarkAt, hskip, List.isPrefixOf, Ne.symm hne]

/-- A stop keyword as written. -/
def Kw.print : Kw → Text
  | .then_ => "then".toList
  | .else_ => "else".toList
  | .elif => "elif".toList
  | .fi => "fi".toList
  | .do_ => "do".toList
  | .done => "done".toList
  | .rbrace => "\x7d".toList
  | .esac => "esac".toList
  | .dsemi => ";;".toList

theorem starts_kw (kw : Kw) : Starts (Kw.print kw) := by
  cases kw <;> exact ⟨_, _, rfl, by decide⟩

theorem matchAt_self (kw : Kw) (b r : Text) (hr : AtBlank r) :
    kw.matchAt ⟨b, Kw.print kw ++ r⟩ = true := by
  cases kw with
  | rbrace => exact congrArg Option.isSome (matchMarkAt_self (starts_kw .rbrace) b r)
  | dsemi => exact congrArg Option.isSome (matchMarkAt_self (starts_kw .dsemi) b r)
  | then_ => exact congrArg Option.isSome (matchKwAt_self _ (starts_kw .then_) b r hr)
  | else_ => exact congrArg Option.isSome (matchKwAt_self _ (starts_kw .else_) b r hr)
  | elif => exact congrArg Option.isSome (matchKwAt_self _ (starts_kw .elif) b r hr)
  | fi => exact congrArg Option.isSome (matchKwAt_self _ (starts_kw .fi) b r hr)
  | do_ => exact congrArg Option.isSome (matchKwAt_self _ (starts_kw .do_) b r hr)
  | done => exact congrArg Option.isSome (matchKwAt_self _ (starts_kw .done) b r hr)
  | esac => exact congrArg Option.isSome (matchKwAt_self _ (starts_kw .esac) b r hr)

/-- The tokens that may open an item: no stop keyword matches there. -/
structure Opens (t : Text) : Prop where
  starts : Starts t
  noStop : ∀ kw : Kw, ∀ b r, AtBlank r → kw.matchAt ⟨b, t ++ r⟩ = false

theorem opens_of_misses {t : Text} (hs : Starts t) (hhead : t.head? ≠ some '\x7d')
    (hsemi : t.head? ≠ some ';')
    (h : ∀ kw ∈ ["then".toList, "else".toList, "elif".toList, "fi".toList, "do".toList,
      "done".toList, "esac".toList], Misses t kw) : Opens t := by
  refine ⟨hs, ?_⟩
  intro kw b r hr
  obtain ⟨c, s, rfl, hc⟩ := hs
  have hmiss : ∀ kw' ∈ ["then".toList, "else".toList, "elif".toList, "fi".toList, "do".toList,
      "done".toList, "esac".toList], (matchKwAt kw' ⟨b, c :: s ++ r⟩).isSome = false := by
    intro kw' hkw'
    rw [h kw' hkw' b r hr]
    rfl
  cases kw with
  | rbrace =>
      exact congrArg Option.isSome (matchMarkAt_of_head hc (by simpa using hhead))
  | dsemi =>
      exact congrArg Option.isSome (matchMarkAt_of_head hc (by simpa using hsemi))
  | then_ => exact hmiss _ (by simp)
  | else_ => exact hmiss _ (by simp)
  | elif => exact hmiss _ (by simp)
  | fi => exact hmiss _ (by simp)
  | do_ => exact hmiss _ (by simp)
  | done => exact hmiss _ (by simp)
  | esac => exact hmiss _ (by simp)

private theorem stop_mem_reserved :
    ∀ kw ∈ ["then".toList, "else".toList, "elif".toList, "fi".toList, "do".toList,
      "done".toList, "esac".toList], kw ∈ reserved := by
  decide

theorem opens_print (t : STok) : Opens t.print := by
  cases t with
  | op k =>
      refine opens_of_misses (print_head_not_blank (.op k)) ?_ ?_ fun kw hkw =>
        misses_op k kw (stop_mem_reserved kw hkw)
      · cases k <;> exact by decide
      · cases k <;> exact by decide
  | word w =>
      obtain ⟨c, s, hc, hhead⟩ := print_head w
      have hne : c ≠ '\x7d' ∧ c ≠ ';' := by
        rcases hhead with hq | hw
        · constructor <;> rintro rfl <;> contradiction
        · have hc := (isWordChar_iff c).mp hw
          exact ⟨hc.2.2.2.2.2.2.2.2.2.2.2, hc.2.2.2.1⟩
      refine opens_of_misses (starts_word w) ?_ ?_ fun kw hkw =>
        misses_word w kw (stop_mem_reserved kw hkw)
      · simpa [STok.print, hc] using hne.1
      · simpa [STok.print, hc] using hne.2

/-- A reserved word that opens an item. -/
theorem opens_kw {t : Text} (ht : isPlainTok t = true) (hhead : t.head? ≠ some '\x7d')
    (h : ∀ kw ∈ ["then".toList, "else".toList, "elif".toList, "fi".toList, "do".toList,
      "done".toList, "esac".toList], t ≠ kw) : Opens t := by
  have hs := starts_of_isPlainTok ht
  refine opens_of_misses hs hhead ?_ fun kw hkw =>
    misses_of_ne ht (reserved_shape kw (stop_mem_reserved kw hkw)).1 (h kw hkw)
  obtain ⟨c, s, rfl, -⟩ := hs
  have hc := ((isPlainTok_iff _).mp ht).2 c (by simp)
  simp only [List.head?_cons, ne_eq, Option.some.injEq]
  rintro rfl
  contradiction

theorem peekKwMask_of_opens {t : Text} (h : Opens t) (mask : List Kw) (b r : Text)
    (hr : AtBlank r) : peekKwMask mask ⟨b, t ++ r⟩ = false := by
  simp only [peekKwMask, List.any_eq_false, Bool.not_eq_true]
  exact fun kw _ => h.noStop kw b r hr

theorem peekKwMask_self {mask : List Kw} {kw : Kw} (h : kw ∈ mask) (b r : Text)
    (hr : AtBlank r) : peekKwMask mask ⟨b, Kw.print kw ++ r⟩ = true :=
  List.any_eq_true.mpr ⟨kw, h, matchAt_self kw b r hr⟩

end Petrush.Verified.Keywords
