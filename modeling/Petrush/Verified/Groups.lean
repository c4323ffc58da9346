import Petrush.Mid.Lexer

/-!
# Groups and unquoted words

The span of a `$(…)` or `$((…))` group depends only on the bytes of the group,
so a word is read the same from a line and from a piece of it that holds the
word.
-/

namespace Petrush.Verified.Groups

open Petrush.Lib.CText
open Petrush.Mid.Lexer

/-! ## The span loop -/

theorem spanLoop_append {d : Nat} {q : Option Char} {s : Text} {n : Nat} (u : Text)
    (h : spanLoop d q s = some n) : spanLoop d q (s ++ u) = some n := by
  induction s generalizing d q n with
  | nil =>
      cases d with
      | zero => simpa [spanLoop] using h
      | succ d => simp [spanLoop] at h
  | cons c s ih =>
      cases d with
      | zero => simpa [spanLoop] using h
      | succ d =>
          obtain ⟨m, hm, rfl⟩ := Option.map_eq_some_iff.mp h
          rw [List.cons_append, spanLoop, ih hm]
          rfl

theorem spanLoop_take {d : Nat} {q : Option Char} {s : Text} {n : Nat}
    (h : spanLoop d q s = some n) : n ≤ s.length ∧ spanLoop d q (s.take n) = some n := by
  induction s generalizing d q n with
  | nil =>
      cases d with
      | zero =>
          obtain rfl := Option.some.inj h
          exact ⟨Nat.le_refl _, rfl⟩
      | succ d => simp [spanLoop] at h
  | cons c s ih =>
      cases d with
      | zero =>
          obtain rfl := Option.some.inj h
          exact ⟨Nat.zero_le _, rfl⟩
      | succ d =>
          obtain ⟨m, hm, rfl⟩ := Option.map_eq_some_iff.mp h
          obtain ⟨hle, htake⟩ := ih hm
          refine ⟨by simpa using hle, ?_⟩
          rw [List.take_succ_cons, spanLoop, htake]
          rfl

/-- A piece of the text that holds the group gives the same span, and none when
the text has none. -/
theorem spanLoop_piece {d : Nat} {q : Option Char} {s u : Text} (hu : u <+: s)
    (h : ∀ n, spanLoop d q s = some n → n ≤ u.length) : spanLoop d q u = spanLoop d q s := by
  obtain ⟨v, rfl⟩ := hu
  cases hs : spanLoop d q (u ++ v) with
  | some n =>
      have htake := (spanLoop_take hs).2
      rw [List.take_append_of_le_length (h n hs)] at htake
      have happ := spanLoop_append (u.drop n) htake
      rwa [List.take_append_drop] at happ
  | none =>
      cases hsu : spanLoop d q u with
      | none => rfl
      | some n =>
          rw [spanLoop_append v hsu] at hs
          contradiction

/-- The last byte of a span closes the group. -/
theorem spanLoop_last {d : Nat} {q : Option Char} {s : Text} {n : Nat}
    (h : spanLoop (d + 1) q s = some n) : ∃ t, s.take n = t ++ [')'] := by
  induction s generalizing d q n with
  | nil => simp [spanLoop] at h
  | cons c s ih =>
      obtain ⟨m, hm, rfl⟩ := Option.map_eq_some_iff.mp h
      rw [List.take_succ_cons]
      cases hd : (spanStep (d + 1) q c).1 with
      | succ e =>
          rw [hd] at hm
          obtain ⟨t, ht⟩ := ih hm
          exact ⟨c :: t, by simp [ht]⟩
      | zero =>
          -- only a closing parenthesis lowers the depth
          rw [hd] at hm
          obtain rfl := Option.some.inj (show some 0 = some m by simpa [spanLoop] using hm)
          have hc : c = ')' := by
            unfold spanStep at hd
            split at hd
            · simp at hd
            · split_ifs at hd with h₁ h₂ h₃
              exact h₃
          exact ⟨[], by simp [hc]⟩

/-! ## Spans of groups -/

/-- A span after its opening bytes: `spanLoop` with `k` added. -/
private theorem getD_map_piece {d k : Nat} {s u : Text} (hu : u <+: s)
    (h : ((spanLoop d none s).map (· + k)).getD 0 ≤ u.length + k) :
    ((spanLoop d none u).map (· + k)).getD 0 = ((spanLoop d none s).map (· + k)).getD 0 := by
  rw [spanLoop_piece hu]
  intro n hn
  simpa [hn] using h

theorem cmdsubstSpan_piece {s u : Text} (hu : u <+: s) (h : cmdsubstSpan s ≤ u.length) :
    cmdsubstSpan u = cmdsubstSpan s := by
  obtain ⟨v, rfl⟩ := hu
  match u with
  | [] => exact (Nat.le_zero.mp h).symm
  | [a] =>
      -- a span is never so short
      have hzero : ∀ w, cmdsubstSpan w ≤ 1 → cmdsubstSpan w = 0 := by
        intro w hw
        unfold cmdsubstSpan at hw ⊢
        split at hw
        · split_ifs at hw ⊢
          · rfl
          · cases hs : spanLoop 1 none _ <;> simp_all
        · rfl
      rw [hzero _ h]
      simp [cmdsubstSpan]
  | a :: b :: u =>
      by_cases hab : a = '$' ∧ b = '('
      · obtain ⟨rfl, rfl⟩ := hab
        simp only [cmdsubstSpan, List.cons_append] at h ⊢
        cases u with
        | nil =>
            by_cases hv : ([] ++ v : Text).head? = some '('
            · rw [if_pos hv]
              simp [spanLoop]
            · rw [if_neg hv] at h ⊢
              exact getD_map_piece (List.prefix_append [] v) (by simpa using h)
        | cons c u =>
            by_cases hc : c = '('
            · simp [hc]
            · have hne : ¬ (c :: u ++ v).head? = some '(' := by simpa using hc
              have hne' : ¬ (c :: u).head? = some '(' := by simpa using hc
              rw [if_neg hne] at h ⊢
              rw [if_neg hne']
              exact getD_map_piece (List.prefix_append _ v) (by simpa using h)
      · have hother : ∀ w, cmdsubstSpan (a :: b :: w) = 0 := by
          intro w
          unfold cmdsubstSpan
          split
          case h_1 heq =>
            simp only [List.cons.injEq] at heq
            exact absurd ⟨heq.1, heq.2.1⟩ hab
          · rfl
        rw [List.cons_append, List.cons_append, hother, hother]

theorem arithSpan_piece {s u : Text} (hu : u <+: s) (h : arithSpan s ≤ u.length) :
    arithSpan u = arithSpan s := by
  obtain ⟨v, rfl⟩ := hu
  have hshort : ∀ w, arithSpan w ≤ 2 → arithSpan w = 0 := by
    intro w hw
    unfold arithSpan at hw ⊢
    split at hw
    · cases hs : spanLoop 2 none _ <;> simp_all
    · rfl
  match u with
  | [] => exact (hshort _ (Nat.le_trans h (by simp))).symm
  | [a] =>
      rw [hshort _ (Nat.le_trans h (by simp))]
      simp [arithSpan]
  | [a, b] =>
      rw [hshort _ h]
      simp [arithSpan]
  | a :: b :: c :: u =>
      by_cases habc : a = '$' ∧ b = '(' ∧ c = '('
      · obtain ⟨rfl, rfl, rfl⟩ := habc
        exact getD_map_piece (List.prefix_append u v) (by simpa [arithSpan] using h)
      · have hother : ∀ w, arithSpan (a :: b :: c :: w) = 0 := by
          intro w
          unfold arithSpan
          split
          case h_1 heq =>
            simp only [List.cons.injEq] at heq
            exact absurd ⟨heq.1, heq.2.1, heq.2.2.1⟩ habc
          · rfl
        rw [List.cons_append, List.cons_append, List.cons_append, hother, hother]

/-- **A group is the same in a piece of the text that holds it.** -/
theorem dollarGroupSpan_piece {s u : Text} (hu : u <+: s) (h : dollarGroupSpan s ≤ u.length) :
    dollarGroupSpan u = dollarGroupSpan s := by
  unfold dollarGroupSpan at h ⊢
  by_cases ha : arithSpan s > 0
  · rw [if_pos ha] at h ⊢
    rw [arithSpan_piece hu h, if_pos ha]
  · rw [if_neg ha] at h ⊢
    rw [arithSpan_piece hu (by omega), if_neg ha]
    exact cmdsubstSpan_piece hu h

theorem dollarGroupSpan_le (s : Text) : dollarGroupSpan s ≤ s.length := by
  have hloop : ∀ d k (t : Text), k + t.length ≤ s.length →
      ((spanLoop d none t).map (· + k)).getD 0 ≤ s.length := by
    intro d k t ht
    cases hs : spanLoop d none t with
    | none => simp
    | some n =>
        have hn := (spanLoop_take hs).1
        simp only [Option.map_some, Option.getD_some]
        omega
  unfold dollarGroupSpan
  split
  · unfold arithSpan
    split
    · exact hloop 2 3 _ (by simp; omega)
    · exact Nat.zero_le _
  · unfold cmdsubstSpan
    split
    · split
      · exact Nat.zero_le _
      · exact hloop 1 2 _ (by simp; omega)
    · exact Nat.zero_le _

/-- The last byte of a group is its closing parenthesis. -/
theorem dollarGroupSpan_last {s : Text} (h : dollarGroupSpan s > 0) :
    ∃ t, s.take (dollarGroupSpan s) = t ++ [')'] := by
  have hloop : ∀ d (o t : Text), s = o ++ t →
      ((spanLoop (d + 1) none t).map (· + o.length)).getD 0 > 0 →
      ∃ u, s.take (((spanLoop (d + 1) none t).map (· + o.length)).getD 0) = u ++ [')'] := by
    rintro d o t rfl hpos
    cases hs : spanLoop (d + 1) none t with
    | none => simp [hs] at hpos
    | some n =>
        obtain ⟨u, hu⟩ := spanLoop_last hs
        refine ⟨o ++ u, ?_⟩
        simp [Nat.add_comm n, List.take_length_add_append, hu]
  unfold dollarGroupSpan at h ⊢
  by_cases ha : arithSpan s > 0
  · rw [if_pos ha]
    unfold arithSpan at ha ⊢
    split at ha
    case h_1 t => exact hloop 1 "$((".toList t rfl ha
    · omega
  · rw [if_neg ha] at h ⊢
    unfold cmdsubstSpan at h ⊢
    split at h
    case h_1 t =>
      split at h
      · omega
      case isFalse hne =>
        rw [if_neg hne]
        exact hloop 0 "$(".toList t rfl h
    · omega

/-! ## Words -/

theorem le_wordLen (stop : Text → Bool) (skip : Nat) (s : Text) (h : skip ≤ s.length) :
    skip ≤ wordLen stop skip s := by
  induction s generalizing skip with
  | nil => exact Nat.le_trans h (Nat.zero_le _)
  | cons c s ih =>
      cases skip with
      | zero => exact Nat.zero_le _
      | succ skip =>
          have hs := ih skip (by simpa using h)
          simp only [wordLen]
          omega

theorem wordLen_le (stop : Text → Bool) (skip : Nat) (s : Text) :
    wordLen stop skip s ≤ s.length := by
  induction s generalizing skip with
  | nil => simp [wordLen]
  | cons c s ih =>
      cases skip with
      | zero =>
          simp only [wordLen, List.length_cons]
          split
          · exact Nat.zero_le _
          · exact Nat.succ_le_succ (ih _)
      | succ skip => exact Nat.succ_le_succ (ih _)

end Petrush.Verified.Groups
