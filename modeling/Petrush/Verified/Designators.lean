import Petrush.Mid.HistExpand

/-!
# The events that designators pick

`!!` and `!^` pick what they name.  `!$` finds the last of the first 64 words; `!n` takes
the number modulo 2 to the 32.

## Main results

* `splitWords_eq`: the words that are found.
* `histNumber_eq`: the event that a number picks.
* `histExpandLine_eq_iff`: when a designator picks what it names.
-/

namespace Petrush.Verified.Designators

open Petrush.Lib.CText
open Petrush.Lib.Stdlib
open Petrush.Mid.HistExpand

/-! ## Words -/

/-- The words of an event. -/
def words (event : Text) : List Text := (event.splitOnP isspace).filter (· ≠ [])

theorem words_space {c : Char} (hc : isspace c = true) (s : Text) : words (c :: s) = words s := by
  have hsplit : (c :: s).splitOnP isspace = [] :: s.splitOnP isspace := by
    have h := List.splitOnP_append_cons [] s hc
    rwa [List.nil_append, List.splitOnP_nil] at h
  rw [words, hsplit]
  rfl

theorem words_dropWhile (s : Text) : words (s.dropWhile isspace) = words s := by
  induction s with
  | nil => rfl
  | cons c s ih =>
      by_cases hc : isspace c = true
      · rw [List.dropWhile_cons_of_pos hc, ih, words_space hc]
      · rw [List.dropWhile_cons_of_neg hc]

/-- The first word, and the others. -/
theorem words_cons {s : Text} (hs : s.takeWhile (!isspace ·) ≠ []) :
    words s = s.takeWhile (!isspace ·) :: words (s.dropWhile (!isspace ·)) := by
  have hword : ∀ c ∈ s.takeWhile (!isspace ·), isspace c = false := by
    intro c hc
    simpa using List.mem_takeWhile_imp hc
  have hs' : s = s.takeWhile (!isspace ·) ++ s.dropWhile (!isspace ·) :=
    List.takeWhile_append_dropWhile.symm
  cases hrest : s.dropWhile (!isspace ·) with
  | nil =>
      have hall : s = s.takeWhile (!isspace ·) := by
        conv_lhs => rw [hs', hrest, List.append_nil]
      have hne : s ≠ [] := fun h => hs (by rw [h, List.takeWhile_nil])
      rw [words, List.splitOnP_eq_singleton fun c hc => hword c (hall ▸ hc), ← hall]
      simp [words, hne]
  | cons c rest =>
      have hc : isspace c = true := by
        have hnot := List.head_dropWhile_not (!isspace ·) (l := s) (by simp [hrest])
        simpa [hrest] using hnot
      rw [words_space hc]
      conv_lhs => rw [hs', hrest, words, List.splitOnP_append_cons_of_forall_mem hword c hc]
      rw [List.filter_cons_of_pos (by simpa using hs)]
      rfl

/-- **The words that are found** are the first ones. -/
theorem splitWords_eq (room : Nat) : ∀ s : Text, splitWords room s = (words s).take room := by
  induction room with
  | zero => exact fun s => rfl
  | succ room ih =>
      intro s
      rw [splitWords, ← words_dropWhile s]
      cases hp : s.dropWhile isspace with
      | nil => simp [words]
      | cons c p =>
          have hc : isspace c = false := by
            have hnot := List.head_dropWhile_not isspace (l := s) (by simp [hp])
            simpa [hp] using hnot
          have hne : (c :: p).takeWhile (!isspace ·) ≠ [] := by simp [hc]
          simp only [reduceCtorEq, if_false]
          rw [words_cons hne, List.take_succ_cons, ih]

/-! ## Numbers -/

theorem not_isspace_of_isdigit {c : Char} (h : isdigit c = true) :
    isspace c = false ∧ c ≠ '-' ∧ c ≠ '+' := by
  have hval : 48 ≤ c.toNat ∧ c.toNat ≤ 57 := by
    simp only [isdigit, Char.isDigit, Bool.and_eq_true, decide_eq_true_eq] at h
    exact ⟨h.1, h.2⟩
  refine ⟨?_, ?_, ?_⟩
  · have hblank : c ≠ ' ' := by
      rintro rfl
      exact absurd hval.1 (by decide)
    simp [isspace, hblank]
    omega
  · rintro rfl
    exact absurd hval.1 (by decide)
  · rintro rfl
    exact absurd hval.1 (by decide)

/-- What `strtol` makes of digits. -/
theorem strtol_digits {digits : Text} (hne : digits ≠ []) (hall : ∀ c ∈ digits, isdigit c = true) :
    (strtol digits).rest = [] ∧ (strtol digits).value = min (digitsValue digits : Int) longMax := by
  obtain ⟨c, ds, rfl⟩ := List.exists_cons_of_ne_nil hne
  obtain ⟨hspace, hminus, hplus⟩ := not_isspace_of_isdigit (hall c List.mem_cons_self)
  have hdrop : (c :: ds).dropWhile isspace = c :: ds := List.dropWhile_cons_of_neg (by simp [hspace])
  have htake : (c :: ds).takeWhile isdigit = c :: ds := List.takeWhile_eq_self_iff.mpr hall
  have hrest : (c :: ds).dropWhile isdigit = [] := List.dropWhile_eq_nil_iff.mpr hall
  have hmin : ¬ ((digitsValue (c :: ds) : Int) < longMin) := by
    have hpos := Int.natCast_nonneg (digitsValue (c :: ds))
    unfold longMin
    omega
  simp only [strtol, hdrop, List.head?_cons]
  simp only [show (some c == some '-') = false by simpa using hminus,
    show (some c == some '+') = false by simpa using hplus, Bool.or_false, Bool.false_eq_true,
    if_false, htake, hrest, reduceCtorEq, hmin]
  split
  · next hbig => exact ⟨rfl, (min_eq_right (Int.le_of_lt hbig)).symm⟩
  · next hsmall => exact ⟨rfl, (min_eq_left (Int.not_lt.mp hsmall)).symm⟩

/-- The number that an index is made from: the digits, as a `long` and then as an `int`. -/
def eventNumber (digits : Text) : Int := (min (digitsValue digits : Int) longMax).bmod (2 ^ 32)

/-- **The event that a number picks.** -/
theorem histNumber_eq (h : History) {digits : Text} (hne : digits ≠ [])
    (hall : ∀ c ∈ digits, isdigit c = true) :
    histNumber h digits =
      if 1 ≤ eventNumber digits ∧ eventNumber digits ≤ h.events.length then
        h.events[(eventNumber digits).toNat - 1]?
      else none := by
  obtain ⟨hrest, hvalue⟩ := strtol_digits hne hall
  have hzero : ¬ 1 ≤ min (digitsValue digits : Int) longMax → eventNumber digits = 0 := by
    intro hsmall
    have hmin : min (digitsValue digits : Int) longMax = 0 := by
      unfold longMax at hsmall ⊢
      omega
    rw [eventNumber, hmin]
    rfl
  simp only [histNumber, hrest, hvalue, true_and]
  rw [← eventNumber]
  by_cases hpos : 1 ≤ min (digitsValue digits : Int) longMax
  · rw [if_pos hpos, historyGet]
    by_cases hbounds : 1 ≤ eventNumber digits ∧ eventNumber digits ≤ h.events.length
    · have hindex : (eventNumber digits - 1).toNat = (eventNumber digits).toNat - 1 := by omega
      rw [if_pos hbounds, if_neg (by omega), hindex]
    · rw [if_neg hbounds]
      split
      · rfl
      · exact List.getElem?_eq_none (by omega)
  · rw [if_neg hpos, if_neg (by omega)]

/-- A number of an event is its own. -/
theorem eventNumber_eq {h : History} {digits : Text}
    (hle : digitsValue digits ≤ h.events.length) : eventNumber digits = digitsValue digits := by
  have hlt := h.length_lt
  have hmin : min (digitsValue digits : Int) longMax = digitsValue digits := by
    unfold longMax
    omega
  rw [eventNumber, hmin, Int.bmod_def]
  split <;> omega

/-! ## Designators -/

/-- A designator, as a line. -/
inductive Designator where
  | last
  | number (digits : Text) (ne_nil : digits ≠ []) (digit : ∀ c ∈ digits, isdigit c = true)
  | lastWord
  | firstArg

def Designator.line : Designator → Text
  | last => ['!', '!']
  | number digits _ _ => '!' :: digits
  | lastWord => ['!', '$']
  | firstArg => ['!', '^']

/-- The last event that is neither empty nor `!!`. -/
def lastEvent (h : History) : Option Text :=
  (h.events.filter fun event => event ≠ [] ∧ event ≠ ['!', '!']).getLast?

/-- What a designator names. -/
def names (h : History) : Designator → Option Text
  | .last => lastEvent h
  | .number digits _ _ =>
      if 1 ≤ digitsValue digits ∧ digitsValue digits ≤ h.events.length then
        h.events[digitsValue digits - 1]?
      else none
  | .lastWord => (lastEvent h).bind fun event => (words event).getLast?
  | .firstArg => (lastEvent h).bind fun event => (words event)[1]?

/-- The number is one of an event, or picks none as an `int` either; the last word is among
the first 64, or is equal to the last of them. -/
def Picked (h : History) : Designator → Prop
  | .number digits _ _ =>
      digitsValue digits ≤ h.events.length ∨
        ¬ (1 ≤ eventNumber digits ∧ eventNumber digits ≤ h.events.length)
  | .lastWord =>
      ∀ event ∈ lastEvent h, (words event).length ≤ wordsRoom ∨
        (words event)[wordsRoom - 1]? = (words event).getLast?
  | .last | .firstArg => True

theorem histLastEvent_eq (h : History) : histLastEvent h = lastEvent h := by
  rw [histLastEvent, lastEvent, List.getLast?_eq_head?_reverse, ← List.filter_reverse,
    List.head?_filter]

theorem histFirstArg_eq (event : Text) : histFirstArg event = (words event)[1]? := by
  rw [histFirstArg, splitWords_eq, List.getElem?_take_of_lt (by decide)]

theorem histLastWord_eq_iff (event : Text) :
    histLastWord event = (words event).getLast? ↔ (words event).length ≤ wordsRoom ∨
      (words event)[wordsRoom - 1]? = (words event).getLast? := by
  rw [histLastWord, splitWords_eq]
  by_cases hlen : (words event).length ≤ wordsRoom
  · rw [List.take_of_length_le hlen]
    exact iff_of_true rfl (.inl hlen)
  · have hlast : ((words event).take wordsRoom).getLast? = (words event)[wordsRoom - 1]? := by
      rw [List.getLast?_eq_getElem?, List.length_take_of_le (by omega),
        List.getElem?_take_of_lt (by decide)]
    rw [hlast]
    exact ⟨.inr, fun h => h.resolve_left hlen⟩

theorem histExpandLine_number (h : History) {digits : Text} (hne : digits ≠ [])
    (hall : ∀ c ∈ digits, isdigit c = true) :
    histExpandLine h ('!' :: digits) = histNumber h digits := by
  obtain ⟨c, ds, rfl⟩ := List.exists_cons_of_ne_nil hne
  have hc := hall c List.mem_cons_self
  have hdrop : ('!' :: c :: ds).dropWhile isspace = '!' :: c :: ds := rfl
  have hbang : c ≠ '!' := by rintro rfl; exact absurd hc (by decide)
  have hdollar : c ≠ '$' := by rintro rfl; exact absurd hc (by decide)
  have hcaret : c ≠ '^' := by rintro rfl; exact absurd hc (by decide)
  rw [histExpandLine, hdrop]
  split
  · simp_all
  · simp_all
  · simp_all
  · next c' ds' _ _ _ heq =>
      obtain ⟨rfl, rfl⟩ : c = c' ∧ ds = ds' := by simpa using heq
      rw [if_pos hc]
  · simp_all

/-- **A designator picks what it names** exactly then. -/
theorem histExpandLine_eq_iff (h : History) (d : Designator) :
    histExpandLine h d.line = names h d ↔ Picked h d := by
  cases d with
  | last => exact iff_of_true (histLastEvent_eq h) trivial
  | firstArg =>
      refine iff_of_true ?_ trivial
      show (histLastEvent h).bind histFirstArg = _
      rw [histLastEvent_eq, funext histFirstArg_eq]
      rfl
  | lastWord =>
      show (histLastEvent h).bind histLastWord = (lastEvent h).bind _ ↔ ∀ event ∈ lastEvent h, _
      rw [histLastEvent_eq]
      cases lastEvent h with
      | none => simp
      | some event => simpa using histLastWord_eq_iff event
  | number digits hne hall =>
      rw [Designator.line, histExpandLine_number h hne hall, histNumber_eq h hne hall, names, Picked]
      by_cases hle : digitsValue digits ≤ h.events.length
      · have hnumber := eventNumber_eq hle
        refine iff_of_true ?_ (.inl hle)
        simp only [hnumber, Int.toNat_natCast]
        norm_cast
      · have hspec : ¬ (1 ≤ digitsValue digits ∧ digitsValue digits ≤ h.events.length) :=
          fun hb => hle hb.2
        rw [if_neg hspec]
        by_cases hbounds : 1 ≤ eventNumber digits ∧ eventNumber digits ≤ h.events.length
        · rw [if_pos hbounds]
          refine iff_of_false (fun hnone => ?_) (fun hor => ?_)
          · have hout := List.getElem?_eq_none_iff.mp hnone
            omega
          · exact hor.elim hle fun hn => hn hbounds
        · rw [if_neg hbounds]
          exact iff_of_true rfl (.inr hbounds)

/-- A number that is one more than 2 to the 32 picks the first event. -/
theorem first_event_picked :
    ¬ ∀ (h : History) (d : Designator), histExpandLine h d.line = names h d := by
  intro hall
  let h : History := { events := [['l', 's']], length_lt := by decide }
  let digits : Text := ['4', '2', '9', '4', '9', '6', '7', '2', '9', '7']
  have hpicks := hall h (.number digits (by decide) (by simp [digits, isdigit]))
  revert hpicks
  decide +kernel

end Petrush.Verified.Designators
