import Petrush.Asm.GlobMatch
import Petrush.Lib.Wildcard
import Petrush.Mid.Glob

/-!
# The three pattern matchers

`petrush_glob_match` and the two loops that take its place are searches with one point
to come back to.  They differ in what they do at a run of stars: `case_pat_match` takes one
at a time, the others take the run and answer at once when nothing follows it.

## Main results

* `casePatLoop_iff`, `matchPatLoop_iff`, `loop_returns` — from any point of a search.
* `matchers_agree` — each decides what the pattern matches.
-/

namespace Petrush.Verified.Patterns

open Petrush.Asm.GlobMatch
open Petrush.Lib.CText
open Petrush.Lib.Wildcard
open Petrush.Mid.Glob

/-! ## `case_pat_match` -/

/-- The turn that comes back to the star; `loop` is what goes on. -/
def comeBack (loop : Text → Text → StarPoint → Bool) : StarPoint → Bool
  | some (q, _ :: u) => loop q u (some (q, u))
  | _ => false

theorem comeBack_iff {loop : Text → Text → StarPoint → Bool} {p s : Text} {a : Char}
    {star : StarPoint} (hmis : ¬ Matches '*' '?' p (a :: s))
    (ih : ∀ q b u, star = some (q, b :: u) →
      (loop q u (some (q, u)) = true ↔ Open '*' '?' q u (some (q, u)))) :
    comeBack loop star = true ↔ Open '*' '?' p (a :: s) star := by
  rw [open_back hmis]
  constructor
  · intro h
    unfold comeBack at h
    split at h
    next q b u => exact ⟨q, b, u, rfl, (ih q b u rfl).mp h⟩
    · contradiction
  · rintro ⟨q, b, u, rfl, h⟩
    exact (ih q b u rfl).mpr h

/-- A pattern that is used up does not match what is left. -/
theorem mismatch_nil (a : Char) (s : Text) : ¬ Matches '*' '?' [] (a :: s) := by
  simp

theorem mismatch_cons {d a : Char} {p s : Text} (hstar : d ≠ '*')
    (h : ¬ (d = '?' ∨ d = a)) : ¬ Matches '*' '?' (d :: p) (a :: s) := by
  rw [matches_eat hstar]
  exact fun hmatch => h hmatch.1

theorem casePatLoop_star (n : Nat) (a : Char) (p s : Text) (star : StarPoint) :
    casePatLoop (n + 1) ('*' :: p) (a :: s) star =
      casePatLoop n p (a :: s) (some (p, a :: s)) := rfl

theorem casePatLoop_nil (n : Nat) (a : Char) (s : Text) (star : StarPoint) :
    casePatLoop (n + 1) [] (a :: s) star = comeBack (casePatLoop n) star := rfl

theorem casePatLoop_cons {d : Char} (hstar : d ≠ '*') (n : Nat) (a : Char) (p s : Text)
    (star : StarPoint) :
    casePatLoop (n + 1) (d :: p) (a :: s) star =
      if d = '?' ∨ d = a then casePatLoop n p s star else comeBack (casePatLoop n) star := by
  have hunfold : casePatLoop (n + 1) (d :: p) (a :: s) star =
      if (d == '?' || d == a) = true then casePatLoop n p s star
      else comeBack (casePatLoop n) star := by
    cases star with
    | none => simp [casePatLoop, comeBack]
    | some point =>
        obtain ⟨q, u⟩ := point
        cases u with
        | nil => simp [casePatLoop, comeBack]
        | cons b u => simp [casePatLoop, comeBack]
  rw [hunfold]
  simp only [Bool.or_eq_true, beq_iff_eq]

/-- **`case_pat_match`** from any point of its search: turns enough for the weight find
what is open. -/
theorem casePatLoop_iff (size n : Nat) : ∀ (p s : Text) (star : StarPoint),
    Reached '*' p s star → Fits size s star → weight size p s star < n →
    (casePatLoop n p s star = true ↔ Open '*' '?' p s star) := by
  induction n with
  | zero =>
      intro p s star _ _ hn
      contradiction
  | succ n ih =>
      intro p s star hreach hfits hn
      have hback : ∀ q b u, star = some (q, b :: u) →
          (casePatLoop n q u (some (q, u)) = true ↔ Open '*' '?' q u (some (q, u))) := by
        rintro q b u rfl
        have hless := weight_back (p := p) hfits
        exact ih q u _ (reached_self q u) hfits.back (by omega)
      cases s with
      | nil =>
          rw [open_nil hreach]
          simp [casePatLoop]
      | cons a s =>
          cases p with
          | nil =>
              rw [casePatLoop_nil]
              exact comeBack_iff (mismatch_nil a s) hback
          | cons d p =>
              by_cases hstar : d = '*'
              · subst hstar
                have hless := weight_star hreach hfits.1 (Nat.le_refl p.length)
                rw [open_star hreach, casePatLoop_star]
                exact ih p (a :: s) _ (reached_self p _) (fits_self p hfits.1) (by omega)
              · rw [casePatLoop_cons hstar]
                by_cases heat : d = '?' ∨ d = a
                · have hless := weight_eat size d a p s star
                  rw [if_pos heat, open_eat hstar heat]
                  exact ih p s star (reached_eat hstar hreach) hfits.tail (by omega)
                · rw [if_neg heat]
                  exact comeBack_iff (mismatch_cons hstar heat) hback

/-! ## `match_pat` -/

theorem matchPatLoop_star (n : Nat) (a : Char) (p s : Text) (star : StarPoint) :
    matchPatLoop (n + 1) ('*' :: p) (a :: s) star =
      if p.dropWhile (· = '*') = [] then true
      else matchPatLoop n (p.dropWhile (· = '*')) (a :: s)
        (some (p.dropWhile (· = '*'), a :: s)) := rfl

theorem matchPatLoop_nil (n : Nat) (a : Char) (s : Text) (star : StarPoint) :
    matchPatLoop (n + 1) [] (a :: s) star = comeBack (matchPatLoop n) star := rfl

theorem matchPatLoop_cons {d : Char} (hstar : d ≠ '*') (n : Nat) (a : Char) (p s : Text)
    (star : StarPoint) :
    matchPatLoop (n + 1) (d :: p) (a :: s) star =
      if d = '?' ∨ d = a then matchPatLoop n p s star else comeBack (matchPatLoop n) star := by
  have hunfold : matchPatLoop (n + 1) (d :: p) (a :: s) star =
      if (d == '?' || d == a) = true then matchPatLoop n p s star
      else comeBack (matchPatLoop n) star := by
    cases star with
    | none => simp [matchPatLoop, comeBack]
    | some point =>
        obtain ⟨q, u⟩ := point
        cases u with
        | nil => simp [matchPatLoop, comeBack]
        | cons b u => simp [matchPatLoop, comeBack]
  rw [hunfold]
  simp only [Bool.or_eq_true, beq_iff_eq]

/-- **`match_pat`** from any point of its search. -/
theorem matchPatLoop_iff (size n : Nat) : ∀ (p s : Text) (star : StarPoint),
    Reached '*' p s star → Fits size s star → weight size p s star < n →
    (matchPatLoop n p s star = true ↔ Open '*' '?' p s star) := by
  induction n with
  | zero =>
      intro p s star _ _ hn
      contradiction
  | succ n ih =>
      intro p s star hreach hfits hn
      have hback : ∀ q b u, star = some (q, b :: u) →
          (matchPatLoop n q u (some (q, u)) = true ↔ Open '*' '?' q u (some (q, u))) := by
        rintro q b u rfl
        have hless := weight_back (p := p) hfits
        exact ih q u _ (reached_self q u) hfits.back (by omega)
      cases s with
      | nil =>
          rw [open_nil hreach]
          simp [matchPatLoop]
      | cons a s =>
          cases p with
          | nil =>
              rw [matchPatLoop_nil]
              exact comeBack_iff (mismatch_nil a s) hback
          | cons d p =>
              by_cases hstar : d = '*'
              · subst hstar
                have hless := weight_star hreach hfits.1 (List.length_dropWhile_le (· = '*') p)
                rw [open_star hreach, open_stars, matchPatLoop_star]
                by_cases hlast : p.dropWhile (· = '*') = []
                · rw [if_pos hlast, hlast]
                  simp [open_last]
                · rw [if_neg hlast]
                  exact ih _ (a :: s) _ (reached_self _ _) (fits_self _ hfits.1) (by omega)
              · rw [matchPatLoop_cons hstar]
                by_cases heat : d = '?' ∨ d = a
                · have hless := weight_eat size d a p s star
                  rw [if_pos heat, open_eat hstar heat]
                  exact ih p s star (reached_eat hstar hreach) hfits.tail (by omega)
                · rw [if_neg heat]
                  exact comeBack_iff (mismatch_cons hstar heat) hback

/-! ## `petrush_glob_match` -/

theorem returns_goto {label label' : Label} {r r' : Regs} {eax : Bool}
    (h : step r label = .goto label' r') (hret : Returns label' r' eax) : Returns label r eax := by
  obtain ⟨n, hrun⟩ := hret
  refine ⟨n + 1, ?_⟩
  rw [run, h]
  exact hrun

theorem returns_ret {label : Label} {r : Regs} {eax : Bool} (h : step r label = .ret eax) :
    Returns label r eax := by
  refine ⟨1, ?_⟩
  rw [run, h]

/-- A routine answers once. -/
theorem run_unique {n : Nat} : ∀ {m : Nat} {label : Label} {r : Regs} {eax eax' : Bool},
    run n label r = some eax → run m label r = some eax' → eax = eax' := by
  induction n with
  | zero =>
      intro m label r eax eax' h _
      contradiction
  | succ n ih =>
      intro m label r eax eax' h h'
      cases m with
      | zero => contradiction
      | succ m =>
          rw [run] at h h'
          cases hstep : step r label with
          | goto label' r' =>
              rw [hstep] at h h'
              exact ih h h'
          | ret b =>
              rw [hstep] at h h'
              exact (Option.some.inj h).symm.trans (Option.some.inj h')

/-- The registers at a point of the search; `r9` holds anything while `r8` is null. -/
def regs (p s : Text) (r9 : Text) : StarPoint → Regs
  | none => { rdi := p, rsi := s, r8 := none, r9 := r9 }
  | some (q, u) => { rdi := p, rsi := s, r8 := some q, r9 := u }

/-- `.Lconsume`. -/
theorem step_eat {d a : Char} {p s : Text} (hstar : d ≠ '*') (h : d = '?' ∨ d = a) (r9 : Text)
    (star : StarPoint) :
    step (regs (d :: p) (a :: s) r9 star) .loop = .goto .loop (regs p s r9 star) := by
  obtain rfl | rfl := h
  · cases star <;> rfl
  · by_cases hone : d = '?'
    · subst hone
      cases star <;> rfl
    · cases star <;> simp [step, regs]

theorem step_mismatch {d a : Char} {p s : Text} (hstar : d ≠ '*') (h : ¬ (d = '?' ∨ d = a))
    (r9 : Text) (star : StarPoint) :
    step (regs (d :: p) (a :: s) r9 star) .loop =
      .goto .backtrack (regs (d :: p) (a :: s) r9 star) := by
  have hone : d ≠ '?' := fun heq => h (Or.inl heq)
  have hlit : d ≠ a := fun heq => h (Or.inr heq)
  cases star <;> simp [step, regs, hlit]

/-- `.Ltrail` is left with the answer for the end of the string. -/
theorem trail_returns (s u : Text) (r8 : Option Text) (p : Text) :
    Returns .trail { rdi := p, rsi := s, r8 := r8, r9 := u } (p.all (· == '*')) := by
  induction p with
  | nil => exact returns_ret rfl
  | cons c p ih =>
      by_cases hc : c = '*'
      · subst hc
        exact returns_goto rfl ih
      · have hstep : step { rdi := c :: p, rsi := s, r8 := r8, r9 := u } .trail = .ret false := by
          simp [step, hc]
        have hall : (c :: p).all (· == '*') = false := by simp [hc]
        rw [hall]
        exact returns_ret hstep

/-- `.Lstar_skip` passes over the stars of a run. -/
theorem starSkip_returns {s u : Text} {eax : Bool} (p : Text)
    (hlast : p.dropWhile (· = '*') = [] → eax = true)
    (hnext : p.dropWhile (· = '*') ≠ [] → Returns .loop
      { rdi := p.dropWhile (· = '*'), rsi := s, r8 := some (p.dropWhile (· = '*')), r9 := u } eax) :
    Returns .starSkip { rdi := p, rsi := s, r8 := some p, r9 := u } eax := by
  induction p with
  | nil =>
      rw [hlast rfl]
      exact returns_ret rfl
  | cons c p ih =>
      by_cases hc : c = '*'
      · subst hc
        exact returns_goto rfl (ih hlast hnext)
      · have hdrop : (c :: p).dropWhile (· = '*') = c :: p := by simp [hc]
        have hstep : step { rdi := c :: p, rsi := s, r8 := some (c :: p), r9 := u } .starSkip =
            .goto .loop { rdi := c :: p, rsi := s, r8 := some (c :: p), r9 := u } := by
          simp [step, hc]
        rw [hdrop] at hnext
        exact returns_goto hstep (hnext (by simp))

/-- `.Lbacktrack` jumps to the loop at the point, or answers no. -/
theorem backtrack_returns {p s : Text} (r9 : Text) {a : Char} {star : StarPoint}
    (hmis : ¬ Matches '*' '?' p (a :: s)) (hreach : Reached '*' p (a :: s) star)
    (ih : ∀ q b u, star = some (q, b :: u) → ∃ eax, Returns .loop (regs q u u (some (q, u))) eax ∧
      (eax = true ↔ Open '*' '?' q u (some (q, u)))) :
    ∃ eax, Returns .backtrack (regs p (a :: s) r9 star) eax ∧
      (eax = true ↔ Open '*' '?' p (a :: s) star) := by
  cases star with
  | none =>
      refine ⟨false, returns_ret rfl, ?_⟩
      rw [open_none]
      simp [hmis]
  | some point =>
      obtain ⟨q, u⟩ := point
      obtain ⟨b, u, rfl⟩ := back_cons hreach
      obtain ⟨eax, hret, hopen⟩ := ih q b u rfl
      refine ⟨eax, returns_goto rfl hret, ?_⟩
      rw [hopen, open_back_point hmis]

/-- **`petrush_glob_match`** from any point of its search: it answers, and finds what is
open. -/
theorem loop_returns (size n : Nat) : ∀ (p s r9 : Text) (star : StarPoint),
    Reached '*' p s star → Fits size s star → weight size p s star < n →
    ∃ eax, Returns .loop (regs p s r9 star) eax ∧ (eax = true ↔ Open '*' '?' p s star) := by
  induction n with
  | zero =>
      intro p s r9 star _ _ hn
      contradiction
  | succ n ih =>
      intro p s r9 star hreach hfits hn
      have hback : ∀ q b u, star = some (q, b :: u) →
          ∃ eax, Returns .loop (regs q u u (some (q, u))) eax ∧
            (eax = true ↔ Open '*' '?' q u (some (q, u))) := by
        rintro q b u rfl
        have hless := weight_back (p := p) hfits
        exact ih q u u _ (reached_self q u) hfits.back (by omega)
      cases s with
      | nil =>
          refine ⟨p.all (· == '*'), ?_, ?_⟩
          · cases star with
            | none => exact returns_goto rfl (trail_returns [] r9 none p)
            | some point => exact returns_goto rfl (trail_returns [] point.2 (some point.1) p)
          · rw [open_nil hreach]
            simp
      | cons a s =>
          cases p with
          | nil =>
              obtain ⟨eax, hret, hopen⟩ := backtrack_returns r9 (mismatch_nil a s) hreach hback
              refine ⟨eax, returns_goto ?_ hret, hopen⟩
              cases star <;> rfl
          | cons d p =>
              by_cases hstar : d = '*'
              · subst hstar
                have hless := weight_star hreach hfits.1 (List.length_dropWhile_le (· = '*') p)
                obtain ⟨eax, hret, hopen⟩ := ih (p.dropWhile (· = '*')) (a :: s) [] _
                  (reached_self _ (a :: s)) (fits_self _ hfits.1) (by omega)
                have hlast : p.dropWhile (· = '*') = [] → eax = true := by
                  intro h
                  rw [h] at hopen
                  exact hopen.mpr (open_last (a :: s))
                have hskip := starSkip_returns p hlast (fun _ => hret)
                rw [← open_stars, ← open_star hreach] at hopen
                refine ⟨eax, returns_goto ?_ hskip, hopen⟩
                cases star <;> rfl
              · by_cases heat : d = '?' ∨ d = a
                · have hless := weight_eat size d a p s star
                  obtain ⟨eax, hret, hopen⟩ := ih p s r9 star (reached_eat hstar hreach)
                    hfits.tail (by omega)
                  rw [← open_eat hstar heat] at hopen
                  exact ⟨eax, returns_goto (step_eat hstar heat r9 star) hret, hopen⟩
                · obtain ⟨eax, hret, hopen⟩ := backtrack_returns r9
                    (mismatch_cons hstar heat) hreach hback
                  exact ⟨eax, returns_goto (step_mismatch hstar heat r9 star) hret, hopen⟩

/-! ## From the beginning -/

/-- The turns the model allows the two loops in C are enough. -/
theorem weight_lt_matchTurns (pat str : Text) :
    weight str.length pat str none < matchTurns pat str := by
  have h := weight_start (p := pat) (Nat.le_refl str.length)
  have hassoc : (pat.length + 1) * (str.length + 1) * (str.length + 1) =
      (pat.length + 1) * ((str.length + 1) * (str.length + 1)) := Nat.mul_assoc _ _ _
  rw [matchTurns]
  omega

theorem fits_start (str : Text) : Fits str.length str (none : StarPoint) :=
  ⟨Nat.le_refl _, fun _ _ h => absurd h (by simp)⟩

theorem matchPat_iff (pat str : Text) : matchPat pat str = true ↔ Matches '*' '?' pat str := by
  rw [matchPat, matchPatLoop_iff str.length _ pat str none (reached_none pat str)
    (fits_start str) (weight_lt_matchTurns pat str), open_none]

theorem casePatMatch_iff (pat str : Text) :
    casePatMatch pat str = true ↔ Matches '*' '?' pat str := by
  rw [casePatMatch, casePatLoop_iff str.length _ pat str none (reached_none pat str)
    (fits_start str) (weight_lt_matchTurns pat str), open_none]

/-- The assembly answers, and with what the pattern matches. -/
theorem globMatch_returns (pat str : Text) : ∃ eax, Returns .loop (called pat str) eax ∧
    (eax = true ↔ Matches '*' '?' pat str) := by
  obtain ⟨eax, hret, hopen⟩ := loop_returns str.length _ pat str [] none (reached_none pat str)
    (fits_start str) (weight_lt_matchTurns pat str)
  rw [open_none] at hopen
  exact ⟨eax, hret, hopen⟩

/-- **The three matchers decide one relation**: the string is the pattern with every `*`
replaced by some sequence and every `?` by one byte. -/
theorem matchers_agree (pat str : Text) :
    (matchPat pat str = true ↔ Matches '*' '?' pat str) ∧
    (casePatMatch pat str = true ↔ Matches '*' '?' pat str) ∧
    (Returns .loop (called pat str) true ↔ Matches '*' '?' pat str) ∧
    (Returns .loop (called pat str) false ↔ ¬ Matches '*' '?' pat str) := by
  obtain ⟨eax, ⟨n, hrun⟩, hopen⟩ := globMatch_returns pat str
  have honly : ∀ b, Returns .loop (called pat str) b ↔ eax = b := by
    intro b
    constructor
    · rintro ⟨m, hrun'⟩
      exact run_unique hrun hrun'
    · rintro rfl
      exact ⟨n, hrun⟩
  refine ⟨matchPat_iff pat str, casePatMatch_iff pat str, ?_, ?_⟩
  · rw [honly, hopen]
  · rw [honly, ← hopen, Bool.not_eq_true]

end Petrush.Verified.Patterns
