import Petrush.Lib.Nesting
import Petrush.Verified.Groups

/-!
# The spans of groups

`petrush_cmdsubst_span` and `petrush_arith_span` keep a depth and an open quote.  What
they compute is said here without either: the shortest balanced text that begins with
the group's opening bytes.

## Main results

* `spanLoop_some`, `spanLoop_none` — the loop stops where the depth comes to zero.
* `group_spans` — both spans, for every text.
-/

namespace Petrush.Verified.GroupSpans

open Petrush.Lib.CText
open Petrush.Lib.Nesting
open Petrush.Mid.Lexer
open Petrush.Verified.Groups

/-- Parentheses, and the two quotes. -/
def parens : Marks Char where
  opening := '('
  closing := ')'
  isQuote := isQuote
  opening_ne := by decide
  opening_bare := by decide
  closing_bare := by decide

/-! ## The loop -/

/-- A turn of the loop is a letter. -/
theorem spanStep_eq (d : Nat) (q : Option Char) (c : Char) :
    ((spanStep (d + 1) q c).1 : Int) = (d + 1 : Nat) + parens.depth q [c] ∧
      (spanStep (d + 1) q c).2 = parens.quoteStep q c := by
  cases q with
  | some q =>
      rw [Marks.depth_quoted]
      exact ⟨by simp [spanStep], rfl⟩
  | none =>
      have hquote : isQuote c = true ↔ c = '\'' ∨ c = '"' := by
        simp [isQuote, or_comm]
      rw [Marks.depth_letter]
      by_cases hq : c = '\'' ∨ c = '"'
      · have ho : c ≠ parens.opening := by rcases hq with rfl | rfl <;> decide
        have hc : c ≠ parens.closing := by rcases hq with rfl | rfl <;> decide
        rw [if_neg ho, if_neg hc]
        simp [spanStep, hq, Marks.quoteStep, parens, hquote.mpr hq]
      · have hplain : isQuote c = false := Bool.eq_false_iff.mpr (mt hquote.mp hq)
        simp only [spanStep, if_neg hq, Marks.quoteStep, parens, hplain]
        split_ifs with ho hc
        · exact ⟨by simp [ho], rfl⟩
        · exact ⟨by simp [hc], rfl⟩
        · exact ⟨by simp [ho, hc], rfl⟩

/-- **The loop returns where the depth comes to zero.** -/
theorem spanLoop_some {d : Nat} {q : Option Char} {s : Text} {n : Nat}
    (h : spanLoop d q s = some n) : parens.Returns d q s n := by
  induction s generalizing d q n with
  | nil =>
      cases d with
      | zero =>
          obtain rfl : 0 = n := by simpa [spanLoop] using h
          exact Marks.Returns.nil q []
      | succ d => simp [spanLoop] at h
  | cons c s ih =>
      cases d with
      | zero =>
          obtain rfl : 0 = n := by simpa [spanLoop] using h
          exact Marks.Returns.nil q (c :: s)
      | succ d =>
          obtain ⟨m, hm, rfl⟩ := Option.map_eq_some_iff.mp h
          obtain ⟨hdepth, hquote⟩ := spanStep_eq d q c
          have hrest := ih hm
          rw [hdepth, hquote] at hrest
          exact hrest.cons (by omega)

/-- It returns nothing where the depth stays positive. -/
theorem spanLoop_none {d : Nat} {q : Option Char} {s : Text} (h : spanLoop d q s = none) (m : Nat) :
    0 < d + parens.depth q (s.take m) := by
  induction s generalizing d q m with
  | nil =>
      cases d with
      | zero => simp [spanLoop] at h
      | succ d =>
          rw [List.take_nil, Marks.depth_nil]
          omega
  | cons c s ih =>
      cases d with
      | zero => simp [spanLoop] at h
      | succ d =>
          cases m with
          | zero =>
              rw [List.take_zero, Marks.depth_nil]
              omega
          | succ m =>
              obtain ⟨hdepth, hquote⟩ := spanStep_eq d q c
              have hrest := ih (Option.map_eq_none_iff.mp h) m
              rw [hdepth, hquote] at hrest
              rw [List.take_succ_cons, Marks.depth_cons]
              omega

/-! ## Opening bytes -/

theorem opens_cmdsubst : parens.Opens ['$', '('] := ⟨by decide, by decide, by decide⟩

theorem opens_arith : parens.Opens ['$', '(', '('] := ⟨by decide, by decide, by decide⟩

/-- `n` is the length of the shortest balanced beginning of `s`; 0 stands for none. -/
def LeastClosing (s : Text) (n : Nat) : Prop :=
  (∀ m, 0 < m → (n = m ↔ IsLeast (parens.closings s) m)) ∧ (n = 0 ↔ parens.closings s = ∅)

/-- A span function on a text with its opening bytes. -/
theorem leastClosing_span {o : Text} (t : Text) (ho : parens.Opens o) {d : Nat}
    (hd : parens.depth none o = d) (hpos : 0 < o.length) :
    LeastClosing (o ++ t) (((spanLoop d none t).map (· + o.length)).getD 0) := by
  cases hrun : spanLoop d none t with
  | some n =>
      have hleast : IsLeast (parens.closings (o ++ t)) (o.length + n) := by
        refine Marks.Returns.isLeast ho ?_
        rw [hd]
        exact spanLoop_some hrun
      simp only [Option.map_some, Option.getD_some, Nat.add_comm n]
      refine ⟨fun m _ => ⟨?_, hleast.unique⟩, ?_, ?_⟩
      · rintro rfl
        exact hleast
      · intro hzero
        omega
      · intro hempty
        have hmem := hleast.1
        rw [hempty] at hmem
        exact absurd hmem (Set.notMem_empty _)
  | none =>
      have hempty : parens.closings (o ++ t) = ∅ := by
        refine Marks.closings_empty ho fun m => ?_
        rw [hd]
        exact spanLoop_none hrun m
      refine ⟨fun m hm => ⟨?_, ?_⟩, fun _ => hempty, fun _ => rfl⟩
      · intro hzero
        exact absurd hzero (Nat.ne_of_lt hm)
      · intro hleast
        have hmem := hleast.1
        rw [hempty] at hmem
        exact absurd hmem (Set.notMem_empty _)

/-! ## The two functions -/

theorem cmdsubstSpan_least {s : Text} (h : ['$', '('] <+: s) (hno : ¬ ['$', '(', '('] <+: s) :
    LeastClosing s (cmdsubstSpan s) := by
  obtain ⟨t, rfl⟩ := h
  have hhead : ¬ t.head? = some '(' := by
    intro hhead
    obtain ⟨u, rfl⟩ := List.head?_eq_some_iff.mp hhead
    exact hno ⟨u, rfl⟩
  have hspan := leastClosing_span t opens_cmdsubst (d := 1) (by decide) (by decide)
  have heq : cmdsubstSpan (['$', '('] ++ t) = ((spanLoop 1 none t).map (· + 2)).getD 0 :=
    if_neg hhead
  rw [heq]
  exact hspan

theorem arithSpan_least {s : Text} (h : ['$', '(', '('] <+: s) : LeastClosing s (arithSpan s) := by
  obtain ⟨t, rfl⟩ := h
  exact leastClosing_span t opens_arith (d := 2) (by decide) (by decide)

/-- Where one of the two begins a group, the other does not. -/
theorem cmdsubstSpan_or_arithSpan (s : Text) : cmdsubstSpan s = 0 ∨ arithSpan s = 0 := by
  by_cases h : ['$', '(', '('] <+: s
  · obtain ⟨t, rfl⟩ := h
    exact Or.inl rfl
  · refine Or.inr ?_
    unfold arithSpan
    split
    · exact absurd ⟨_, rfl⟩ h
    · rfl

theorem spans_le (s : Text) : cmdsubstSpan s ≤ s.length ∧ arithSpan s ≤ s.length := by
  have hgroup := dollarGroupSpan_le s
  unfold dollarGroupSpan at hgroup
  rcases cmdsubstSpan_or_arithSpan s with hzero | hzero
  · rw [hzero] at hgroup ⊢
    split_ifs at hgroup with hpos
    · exact ⟨Nat.zero_le _, hgroup⟩
    · exact ⟨Nat.zero_le _, by omega⟩
  · rw [hzero] at hgroup ⊢
    exact ⟨hgroup, Nat.zero_le _⟩

/-- A closed group is closed in every longer text. -/
theorem cmdsubstSpan_append {s : Text} (u : Text) (h : 0 < cmdsubstSpan s) :
    cmdsubstSpan (s ++ u) = cmdsubstSpan s := by
  have hprefix : ['$', '('] <+: s := by
    unfold cmdsubstSpan at h
    split at h
    · exact ⟨_, rfl⟩
    · contradiction
  obtain ⟨t, rfl⟩ := hprefix
  cases t with
  | nil => contradiction
  | cons c t =>
      by_cases hc : c = '('
      · subst hc
        contradiction
      · have hhead : ∀ r : Text, ¬ (c :: r).head? = some '(' := fun r => by simpa using hc
        have heq : ∀ r : Text, cmdsubstSpan (['$', '('] ++ c :: r) =
            ((spanLoop 1 none (c :: r)).map (· + 2)).getD 0 := fun r => if_neg (hhead r)
        rw [heq] at h
        cases hrun : spanLoop 1 none (c :: t) with
        | none =>
            rw [hrun] at h
            contradiction
        | some n =>
            have hlong : spanLoop 1 none (c :: (t ++ u)) = some n := spanLoop_append u hrun
            have hcut : ['$', '('] ++ c :: t ++ u = ['$', '('] ++ c :: (t ++ u) := rfl
            rw [hcut, heq, heq, hrun, hlong]

@[inherit_doc cmdsubstSpan_append]
theorem arithSpan_append {s : Text} (u : Text) (h : 0 < arithSpan s) :
    arithSpan (s ++ u) = arithSpan s := by
  have hprefix : ['$', '(', '('] <+: s := by
    unfold arithSpan at h
    split at h
    · exact ⟨_, rfl⟩
    · contradiction
  obtain ⟨t, rfl⟩ := hprefix
  have heq : ∀ r : Text, arithSpan (['$', '(', '('] ++ r) =
      ((spanLoop 2 none r).map (· + 3)).getD 0 := fun _ => rfl
  rw [heq] at h
  cases hrun : spanLoop 2 none t with
  | none =>
      rw [hrun] at h
      contradiction
  | some n => rw [List.append_assoc, heq, heq, hrun, spanLoop_append u hrun]

/-- **Spans are least balanced beginnings.**  For every text: `petrush_cmdsubst_span`
after `$(` but not `$((`, and `petrush_arith_span` after `$((`, return the length of the
shortest balanced beginning, 0 when there is none; no span goes past the text, at most
one is not 0, and a closed group stays as it is whatever follows. -/
theorem group_spans (s : Text) :
    (['$', '('] <+: s → ¬ ['$', '(', '('] <+: s → LeastClosing s (cmdsubstSpan s)) ∧
    (['$', '(', '('] <+: s → LeastClosing s (arithSpan s)) ∧
    cmdsubstSpan s ≤ s.length ∧ arithSpan s ≤ s.length ∧
    (cmdsubstSpan s = 0 ∨ arithSpan s = 0) ∧
    (∀ u, 0 < cmdsubstSpan s → cmdsubstSpan (s ++ u) = cmdsubstSpan s) ∧
    (∀ u, 0 < arithSpan s → arithSpan (s ++ u) = arithSpan s) :=
  ⟨cmdsubstSpan_least, arithSpan_least, (spans_le s).1, (spans_le s).2,
    cmdsubstSpan_or_arithSpan s, fun u => cmdsubstSpan_append u, fun u => arithSpan_append u⟩

/-- A group with a quoted parenthesis in it. -/
theorem group_spans_quoted : LeastClosing "$(a ')' (b))c".toList 12 :=
  (group_spans "$(a ')' (b))c".toList).1 (by decide) (by decide)

end Petrush.Verified.GroupSpans
