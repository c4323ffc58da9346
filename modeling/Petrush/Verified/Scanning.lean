import Petrush.Mid.Lexer

/-!
# The scanners of the lexer, one word at a time

What `scan_word`, its two siblings and the tokenizer do with a word that is
plain text or written between quotes, whatever follows it on the line.
-/

namespace Petrush.Verified.Scanning

open Petrush.Lib.CText
open Petrush.Mid.Ast
open Petrush.Mid.Lexer

/-! ## Words -/

theorem isspace_of_isQuote {q : Char} (h : isQuote q = true) : isspace q = false := by
  rcases (by simpa [isQuote] using h : q = '"' ∨ q = '\'') with rfl | rfl <;> decide

/-- An unquoted word runs through text that neither stops it nor opens a
group. -/
theorem wordLen_append (stop : Text → Bool) (s t : Text)
    (h : ∀ c ∈ s, c ≠ '$' ∧ ∀ u, stop (c :: u) = false) :
    wordLen stop 0 (s ++ t) = s.length + wordLen stop 0 t := by
  induction s with
  | nil => simp
  | cons c s ih =>
      obtain ⟨hd, hstop⟩ := h c (by simp)
      have hs := ih (fun d hd => h d (by simp [hd]))
      rw [List.cons_append]
      simp only [wordLen, hstop, hd, if_false, hs, List.length_cons, Bool.false_eq_true]
      omega

/-- An unquoted word. -/
theorem scanWith_unquoted (stop : Text → Bool) {c : Char} (s : Text) (h : isQuote c = false) :
    scanWith stop (c :: s) =
      (⟨(c :: s).take (wordLen stop 0 (c :: s)), .unquoted⟩, wordLen stop 0 (c :: s)) := by
  simp [scanWith, h]

/-- An unquoted word that ends where the rest of the line begins. -/
theorem scanWith_plain (stop : Text → Bool) (s t : Text) (hne : s ≠ [])
    (hq : ∀ c ∈ s, isQuote c = false) (h : ∀ c ∈ s, c ≠ '$' ∧ ∀ u, stop (c :: u) = false)
    (ht : wordLen stop 0 t = 0) : scanWith stop (s ++ t) = (⟨s, .unquoted⟩, s.length) := by
  cases s with
  | nil => contradiction
  | cons c s =>
      have hlen : wordLen stop 0 (c :: (s ++ t)) = (c :: s).length := by
        simpa [ht] using wordLen_append stop (c :: s) t h
      rw [List.cons_append, scanWith_unquoted stop _ (hq c (by simp)), hlen,
        ← List.cons_append, List.take_left]

/-- A closed quoted word, and what it takes of the line. -/
theorem scanWith_quoted (stop : Text → Bool) (q : Char) (s t : Text) (hq : isQuote q = true)
    (h : q ∉ s) :
    scanWith stop (q :: s ++ q :: t) =
      (⟨s, if q = '\'' then .single else .double⟩, s.length + 2) := by
  have hs : ∀ d ∈ s, (d != q) = true := by
    intro d hd
    simp only [bne_iff_ne, ne_eq]
    rintro rfl
    exact h hd
  have hcontent : (s ++ q :: t).takeWhile (fun d => d != q) = s := by
    simp [List.takeWhile_append_of_pos hs]
  simp [scanWith, hq, hcontent]
  omega

/-! ## Tokens -/

/-- A quote starts a quoted word. -/
theorem nextToken_of_isQuote {c : Char} (s : Text) (h : isQuote c = true) :
    nextToken (c :: s) = some (.word (scanWord (c :: s)).1, (scanWord (c :: s)).2) := by
  simp [nextToken, h]

/-- What does not begin an operator begins a word. -/
theorem nextToken_of_not_op {c : Char} (s : Text)
    (hc : c ≠ '|' ∧ c ≠ '<' ∧ c ≠ '>' ∧ c ≠ '&') (hs : c = '2' → s.head? ≠ some '>') :
    nextToken (c :: s) = some (.word (scanWord (c :: s)).1, (scanWord (c :: s)).2) := by
  obtain ⟨hp, hl, hg, ha⟩ := hc
  have hop : tryConsumeSimpleOp (c :: s) = .no := by
    unfold tryConsumeSimpleOp
    split <;> simp_all
  have herr : tryConsumeErrRedir (c :: s) = .no := by
    unfold tryConsumeErrRedir
    split <;> simp_all
  simp [nextToken, hop, herr]

/-- The counter passes over what a token took. -/
theorem tokenizeFrom_drop (n : Nat) (s : Text) : tokenizeFrom n s = tokenizeFrom 0 (s.drop n) := by
  induction s generalizing n with
  | nil => cases n <;> rfl
  | cons c s ih =>
      cases n with
      | zero => rfl
      | succ n => simpa [tokenizeFrom] using ih n

/-- The first token of a text and the tokens after it. -/
theorem tokenizeFrom_token {c : Char} {s : Text} {tok : Token} {len : Nat}
    (hsp : isspace c = false) (hnext : nextToken (c :: s) = some (tok, len)) :
    tokenizeFrom 0 (c :: s) = (tokenizeFrom 0 (s.drop (len - 1))).map (tok :: ·) := by
  simp only [tokenizeFrom, hsp, hnext, Bool.false_eq_true, if_false, tokenizeFrom_drop _ s]

/-- Only blanks give no token. -/
theorem isspace_of_tokenizeFrom_nil (s : Text) (h : tokenizeFrom 0 s = some []) :
    ∀ c ∈ s, isspace c = true := by
  induction s with
  | nil => simp
  | cons c s ih =>
      unfold tokenizeFrom at h
      split at h
      case isTrue hsp =>
        intro d hd
        rcases List.mem_cons.mp hd with rfl | hd
        · exact hsp
        · exact ih h d hd
      · split at h
        · contradiction
        · simp at h

end Petrush.Verified.Scanning
