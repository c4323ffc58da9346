import Petrush.Verified.Connectors
import Petrush.Verified.Groups
import Petrush.Verified.LineScan
import Petrush.Verified.Scanning

/-!
# One lexeme under the two scans

A lexeme of the line is read by `tokenize` from any piece of the line that was
cut where it ends or later, and `find_list_connector` passes over it.

## Main results

* `nextToken_lexeme`: `tokenize` reads the lexeme.
* `scanAt_lexeme`: the connector scan passes over it.
-/

namespace Petrush.Verified.Lexemes

open Petrush.Lib.CText
open Petrush.Mid.Ast
open Petrush.Mid.Lexer
open Petrush.Mid.Parser
open Petrush.Verified.Surface
open Petrush.Verified.Scanning
open Petrush.Verified.Connectors
open Petrush.Verified.Groups
open Petrush.Verified.LineScan

/-! ## The forms of a lexeme -/

theorem lineStop_cons (c : Char) (s : Text) :
    lineStop (c :: s) = true ↔
      isspace c = true ∨ c = '|' ∨ c = '<' ∨ c = '>' ∨ c = '&' ∨ c = ';' := by
  simp [lineStop, or_assoc]

/-- The first lexeme of a text that begins with a byte that is not blank. -/
inductive Shape : Text → LTok → Nat → Prop where
  | closed (q : Char) (body rest : Text) (hq : isQuote q = true) (h : q ∉ body) :
      Shape (q :: body ++ q :: rest)
        (.tok (.word ⟨body, if q = '\'' then .single else .double⟩)) (body.length + 2)
  | unclosed (q : Char) (body : Text) (hq : isQuote q = true) (h : q ∉ body) :
      Shape (q :: body)
        (.tok (.word ⟨body, if q = '\'' then .single else .double⟩)) (body.length + 1)
  | conn (k : Sep) (s : Text) (h : connAt s = some k) : Shape s (.conn k) k.print.length
  | pipe (rest : Text) (h : rest.head? ≠ some '|') : Shape ('|' :: rest) (.tok (.op .pipe)) 1
  | lt (rest : Text) (h : rest.head? ≠ some '<') : Shape ('<' :: rest) (.tok (.op .lt)) 1
  | dless (rest : Text) (h : rest.head? ≠ some '-') :
      Shape ('<' :: '<' :: rest) (.tok (.op .dless)) 2
  | dlessdash (rest : Text) : Shape ('<' :: '<' :: '-' :: rest) (.tok (.op .dlessdash)) 3
  | gt (rest : Text) (h : rest.head? ≠ some '>') : Shape ('>' :: rest) (.tok (.op .gt)) 1
  | gtgt (rest : Text) : Shape ('>' :: '>' :: rest) (.tok (.op .gtgt)) 2
  | ampgt (rest : Text) : Shape ('&' :: '>' :: rest) (.tok (.op .ampgt)) 2
  | errgtgt (rest : Text) : Shape ('2' :: '>' :: '>' :: rest) (.tok (.op .errgtgt)) 3
  | errgt (rest : Text) (h : rest.head? ≠ some '>')
      (hamp : ¬ ['&', '1'] <+: rest ∧ ¬ ['&', '>'] <+: rest) :
      Shape ('2' :: '>' :: rest) (.tok (.op .errgt)) 2
  | errtoout (rest : Text) (h : errToOutEnd rest = true ∨ rest.head? = some ';') :
      Shape ('2' :: '>' :: '&' :: '1' :: rest) (.tok (.op .errtoout)) 4
  | badTail (rest : Text) (h : ¬ (errToOutEnd rest = true ∨ rest.head? = some ';')) :
      Shape ('2' :: '>' :: '&' :: '1' :: rest) .bad 4
  | badPath (rest : Text) : Shape ('2' :: '>' :: '&' :: '>' :: rest) .bad 4
  | word (c : Char) (s : Text) (hq : isQuote c = false) (hline : lineStop (c :: s) = false)
      (herr : c = '2' → s.head? ≠ some '>') :
      Shape (c :: s) (.tok (.word ⟨(c :: s).take (wordLen lineStop 0 (c :: s)), .unquoted⟩))
        (wordLen lineStop 0 (c :: s))

/-- A quoted word does not depend on where unquoted ones end. -/
private theorem shape_quoted {q : Char} (hq : isQuote q = true) (s : Text) :
    Shape (q :: s) (.tok (.word (scanWith lineStop (q :: s)).1)) (scanWith lineStop (q :: s)).2 := by
  have hsplit := List.takeWhile_append_dropWhile (p := fun d => d != q) (l := s)
  have hfree : q ∉ s.takeWhile (fun d => d != q) := by
    intro hmem
    simpa using List.mem_takeWhile_imp hmem
  cases hrest : s.dropWhile (fun d => d != q) with
  | nil =>
      have hbody : s.takeWhile (fun d => d != q) = s := by simpa [hrest] using hsplit
      rw [hbody] at hfree
      have hscan : scanWith lineStop (q :: s) =
          (⟨s, if q = '\'' then .single else .double⟩, s.length + 1) := by
        simp [scanWith, hq, hbody, Nat.add_comm]
      rw [hscan]
      exact Shape.unclosed q s hq hfree
  | cons d rest =>
      obtain rfl : d = q := by
        have hget := List.dropWhile_get_zero_not (p := fun d => d != q) s (by rw [hrest]; simp)
        simpa [hrest] using hget
      rw [hrest] at hsplit
      generalize s.takeWhile (fun e => e != d) = body at hsplit hfree
      subst hsplit
      have hscan := scanWith_quoted lineStop d body rest hq hfree
      rw [List.cons_append] at hscan
      rw [hscan]
      exact Shape.closed d body rest hq hfree

private theorem shape_simpleOp {s : Text} (hconn : connAt s = none) {k : TokKind} {len : Nat}
    (h : tryConsumeSimpleOp s = .op k len) : Shape s (.tok (.op k)) len := by
  unfold tryConsumeSimpleOp at h
  split at h <;> simp only [Consumed.op.injEq, reduceCtorEq] at h
  case h_1 rest =>
    obtain ⟨rfl, rfl⟩ := h
    apply Shape.pipe
    rintro hhead
    cases rest with
    | nil => simp at hhead
    | cons d rest =>
        obtain rfl : d = '|' := by simpa using hhead
        simp [connAt] at hconn
  case h_2 rest =>
    obtain ⟨rfl, rfl⟩ := h
    exact Shape.dlessdash rest
  case h_3 rest hne =>
    obtain ⟨rfl, rfl⟩ := h
    apply Shape.dless
    cases rest <;> simp_all
  case h_4 rest hne₁ hne₂ =>
    obtain ⟨rfl, rfl⟩ := h
    apply Shape.lt
    cases rest <;> simp_all
  case h_5 rest =>
    obtain ⟨rfl, rfl⟩ := h
    exact Shape.ampgt rest
  case h_6 rest =>
    obtain ⟨rfl, rfl⟩ := h
    exact Shape.gtgt rest
  case h_7 rest hne =>
    obtain ⟨rfl, rfl⟩ := h
    apply Shape.gt
    cases rest <;> simp_all

private theorem shape_errRedir {s : Text} {t : LTok} {len : Nat}
    (h : errRedirAt s = some (t, len)) : Shape s t len := by
  unfold errRedirAt at h
  split at h <;> simp only [Option.some.injEq, Prod.mk.injEq, reduceCtorEq] at h
  case h_1 rest =>
    obtain ⟨rfl, rfl⟩ := h
    exact Shape.errgtgt rest
  case h_2 rest =>
    obtain ⟨rfl, rfl⟩ := h
    by_cases hend : errToOutEnd rest = true ∨ rest.head? = some ';'
    · rw [if_pos (by simpa using hend)]
      exact Shape.errtoout rest hend
    · rw [if_neg (by simpa using hend)]
      exact Shape.badTail rest hend
  case h_3 rest =>
    obtain ⟨rfl, rfl⟩ := h
    exact Shape.badPath rest
  case h_4 rest hne₁ hne₂ hne₃ =>
    obtain ⟨rfl, rfl⟩ := h
    apply Shape.errgt
    · cases rest <;> simp_all
    · constructor
      · rintro ⟨r, rfl⟩
        exact hne₂ r rfl
      · rintro ⟨r, rfl⟩
        exact hne₃ r rfl

/-- **Every lexeme has one of the forms.** -/
theorem shape_lexemeAt {c : Char} (s : Text) (hsp : isspace c = false) :
    Shape (c :: s) (lexemeAt (c :: s)).1 (lexemeAt (c :: s)).2 := by
  by_cases hq : isQuote c = true
  · simp only [lexemeAt, List.head?_cons, Option.any_some, hq, if_true]
    exact shape_quoted hq s
  · simp only [lexemeAt, List.head?_cons, Option.any_some, hq]
    cases hconn : connAt (c :: s) with
    | some k => exact Shape.conn k _ hconn
    | none =>
        cases hop : tryConsumeSimpleOp (c :: s) with
        | op k len => exact shape_simpleOp hconn hop
        | invalid => exact absurd hop (by unfold tryConsumeSimpleOp; split <;> simp)
        | no =>
            cases herr : errRedirAt (c :: s) with
            | some found => exact shape_errRedir herr
            | none =>
                have hq' : isQuote c = false := by simpa using hq
                have hline : lineStop (c :: s) = false := by
                  by_contra hstop
                  rw [Bool.not_eq_false, lineStop_cons] at hstop
                  rcases hstop with h | rfl | rfl | rfl | rfl | rfl
                  · simp [hsp] at h
                  · simp [tryConsumeSimpleOp] at hop
                  · exact absurd hop (by unfold tryConsumeSimpleOp; split <;> simp_all)
                  · exact absurd hop (by unfold tryConsumeSimpleOp; split <;> simp_all)
                  · -- `&` is a connector unless it begins `&>`
                    unfold connAt at hconn
                    split at hconn <;> simp_all [tryConsumeSimpleOp]
                  · simp [connAt] at hconn
                have htwo : c = '2' → s.head? ≠ some '>' := by
                  rintro rfl hhead
                  cases s with
                  | nil => simp at hhead
                  | cons d s =>
                      obtain rfl : d = '>' := by simpa using hhead
                      exact absurd herr (by unfold errRedirAt; split <;> simp_all)
                rw [Option.getD_none, scanWith_unquoted lineStop s hq']
                exact Shape.word c s hq' hline htwo

/-! ## Unquoted words -/

theorem wordStop_of_lineStop {c : Char} {s : Text} (h : lineStop (c :: s) = false) (u : Text) :
    wordStop (c :: u) = false := by
  simp only [lineStop, Bool.or_eq_false_iff] at h
  simp [wordStop, h]

/-- A group lies in the text. -/
private theorem groupSkip_le (c : Char) (s : Text) :
    (if c = '$' then dollarGroupSpan (c :: s) - 1 else 0) ≤ s.length := by
  have hspan := dollarGroupSpan_le (c :: s)
  simp only [List.length_cons] at hspan
  split <;> omega

/-- The group that begins at a byte of a word is the same in a piece that holds
the word. -/
private theorem groupSkip_cut {c : Char} {s u : Text} {n : Nat}
    (hn : (if c = '$' then dollarGroupSpan (c :: s) - 1 else 0) ≤ n) (hle : n ≤ s.length)
    (hu : u <+: s.drop n) :
    (if c = '$' then dollarGroupSpan (c :: (s.take n ++ u)) - 1 else 0) =
      (if c = '$' then dollarGroupSpan (c :: s) - 1 else 0) := by
  by_cases hc : c = '$'
  · have hpre : c :: (s.take n ++ u) <+: c :: s := by
      apply List.cons_prefix_cons.mpr
      refine ⟨rfl, ?_⟩
      conv_rhs => rw [← List.take_append_drop n s]
      exact (List.prefix_append_right_inj _).mpr hu
    have hspan : dollarGroupSpan (c :: s) ≤ (c :: (s.take n ++ u)).length := by
      rw [if_pos hc] at hn
      have htake : (s.take n).length = n := List.length_take_of_le hle
      simp only [List.length_cons, List.length_append, htake]
      omega
    rw [if_pos hc, if_pos hc, dollarGroupSpan_piece hpre hspan]
  · rw [if_neg hc, if_neg hc]

/-- A word of the line is read whole from a piece that ends with it, or where
`scan_word` stops. -/
theorem wordLen_cut (skip : Nat) (s u : Text) (hskip : skip ≤ s.length)
    (hu : u <+: s.drop (wordLen lineStop skip s)) (hstop : u = [] ∨ wordStop u = true) :
    wordLen wordStop skip (s.take (wordLen lineStop skip s) ++ u) = wordLen lineStop skip s := by
  induction s generalizing skip with
  | nil =>
      obtain rfl : u = [] := by simpa using hu
      simp [wordLen]
  | cons c s ih =>
      cases skip with
      | succ skip =>
          simp only [wordLen, List.take_succ_cons, List.cons_append, List.drop_succ_cons] at hu ⊢
          rw [ih skip (by simpa using hskip) hu]
      | zero =>
          by_cases hline : lineStop (c :: s) = true
          · have hzero : wordLen lineStop 0 (c :: s) = 0 := by simp [wordLen, hline]
            rw [hzero]
            rcases hstop with rfl | hstop
            · rfl
            · cases u with
              | nil => rfl
              | cons d u => simp [wordLen, hstop]
          · simp only [wordLen, hline, Bool.false_eq_true, if_false] at hu ⊢
            have hline' : lineStop (c :: s) = false := by simpa using hline
            have hle := groupSkip_le c s
            have hword := le_wordLen lineStop _ s hle
            rw [List.drop_succ_cons] at hu
            rw [List.take_succ_cons, List.cons_append]
            simp only [wordLen, wordStop_of_lineStop hline', Bool.false_eq_true, if_false]
            rw [groupSkip_cut hword (wordLen_le lineStop _ s) hu, ih _ hle hu]

/-- A word ends with the group it began in, with another group, or with a byte
that does not stop it. -/
theorem wordLen_last (skip : Nat) (s : Text) (hskip : skip ≤ s.length) :
    wordLen lineStop skip s = skip ∨
      ∃ t c, s.take (wordLen lineStop skip s) = t ++ [c] ∧ isspace c = false ∧ c ≠ '>' := by
  induction s generalizing skip with
  | nil =>
      obtain rfl : skip = 0 := by simpa using hskip
      exact Or.inl rfl
  | cons c s ih =>
      cases skip with
      | succ skip =>
          rcases ih skip (by simpa using hskip) with heq | ⟨t, d, ht, hd⟩
          · exact Or.inl (by simp [wordLen, heq])
          · exact Or.inr ⟨c :: t, d, by simp [wordLen, ht], hd⟩
      | zero =>
          by_cases hline : lineStop (c :: s) = true
          · exact Or.inl (by simp [wordLen, hline])
          · right
            have hc : ¬ isspace c = true ∧ c ≠ '>' := by
              rw [lineStop_cons] at hline
              exact ⟨fun h => hline (Or.inl h), fun h => hline (by simp [h])⟩
            simp only [wordLen, hline, Bool.false_eq_true, if_false, List.take_succ_cons]
            rcases ih _ (groupSkip_le c s) with heq | ⟨t, d, ht, hd⟩
            · rw [heq]
              by_cases hgroup : c = '$' ∧ dollarGroupSpan (c :: s) > 0
              · obtain ⟨t, ht⟩ := dollarGroupSpan_last hgroup.2
                refine ⟨t, ')', ?_, rfl, by decide⟩
                rw [if_pos hgroup.1, ← List.take_succ_cons, Nat.sub_add_cancel hgroup.2, ht]
              · have hzero : (if c = '$' then dollarGroupSpan (c :: s) - 1 else 0) = 0 := by
                  split
                  · have := not_and.mp hgroup (by assumption)
                    omega
                  · rfl
                exact ⟨[], c, by simp [hzero], by simpa using hc.1, hc.2⟩
            · exact ⟨c :: t, d, by simp [ht], hd⟩

/-- The connector scan passes over an unquoted word without stray quotes. -/
theorem findFrom_word (skip : Nat) (s : Text) (p : Option Char × Option Char)
    (hskip : skip ≤ s.length) (hq : quoteIn (wordLen lineStop skip s) skip s = false) :
    findFrom p.1 p.2 none skip s =
      (scanAt (lookBehind p (s.take (wordLen lineStop skip s)))
        (s.drop (wordLen lineStop skip s))).map (shift (wordLen lineStop skip s)) := by
  induction s generalizing skip p with
  | nil => simp [findFrom]
  | cons c s ih =>
      cases skip with
      | succ skip =>
          simp only [wordLen, quoteIn] at hq ⊢
          rw [findFrom, ih skip (p.2, some c) (by simpa using hskip) hq]
          exact map_shift _ 1 _
      | zero =>
          by_cases hline : lineStop (c :: s) = true
          · simp [wordLen, hline, map_shift_zero]
          · simp only [wordLen, hline, Bool.false_eq_true, if_false, quoteIn,
              Bool.or_eq_false_iff] at hq ⊢
            have hs := ih _ (p.2, some c) (groupSkip_le c s) hq.2
            have hconn : connectorAt p.1 p.2 (c :: s) = none := by
              apply connectorAt_of_ne
              rw [lineStop_cons] at hline
              exact ⟨fun h => hline (by simp [h]), fun h => hline (by simp [h]),
                fun h => hline (by simp [h])⟩
            rw [List.take_succ_cons, List.drop_succ_cons, lookBehind_cons, ← map_shift, ← hs]
            by_cases hgroup : c = '$' ∧ dollarGroupSpan (c :: s) > 0
            · obtain ⟨rfl, hspan⟩ := hgroup
              rw [findFrom, if_neg (by decide), if_pos ⟨rfl, hspan⟩, if_pos rfl]
              rfl
            · have hzero : (if c = '$' then dollarGroupSpan (c :: s) - 1 else 0) = 0 := by
                split
                · have := not_and.mp hgroup (by assumption)
                  omega
                · rfl
              simp only [findFrom, hq.1, hgroup, hconn, hzero, Bool.false_eq_true, if_false]
              rfl

/-! ## The lexeme in a piece of the line -/

/-- A piece `u` of the rest of a line, cut at a blank, before a connector or at
the end. -/
structure CutAt (u rest : Text) : Prop where
  pre : u <+: rest
  ends : u = [] → ∀ c ∈ rest.head?, isspace c = true ∨ connAt rest ≠ none
  conn : connAt rest ≠ none → u = []
  ampgt : ['&', '>'] <+: rest → ['&', '>'] <+: u

namespace CutAt

variable {u rest : Text}

theorem head?_ne (h : CutAt u rest) {c : Char} (hc : rest.head? ≠ some c) :
    u.head? ≠ some c := by
  cases u with
  | nil => simp
  | cons d u =>
      obtain ⟨v, rfl⟩ := h.pre
      simpa using hc

/-- `scan_word` stops where the whole line stops it. -/
theorem stops (h : CutAt u rest) (hline : rest = [] ∨ lineStop rest = true) :
    u = [] ∨ wordStop u = true := by
  cases u with
  | nil => exact Or.inl rfl
  | cons c u =>
      right
      obtain ⟨v, rfl⟩ := h.pre
      have hconn : connAt (c :: u ++ v) = none := by
        by_contra hne
        simpa using h.conn hne
      have hstop : lineStop (c :: (u ++ v)) = true := by simpa using hline
      rw [lineStop_cons] at hstop
      rcases hstop with hsp | rfl | rfl | rfl | rfl | rfl
      · simp [wordStop, hsp]
      · rfl
      · rfl
      · rfl
      · -- `&` that is no connector begins `&>`
        have hgt : ['&', '>'] <+: '&' :: u ++ v := by
          unfold connAt at hconn
          split at hconn <;> simp_all
        obtain ⟨w, hw⟩ := h.ampgt hgt
        obtain rfl : '>' :: w = u := by simpa using hw
        rfl
      · simp [connAt] at hconn

end CutAt

/-- What `tokenize` makes of a lexeme that is no connector. -/
def readAs (len : Nat) : LTok → Option (Token × Nat)
  | .tok t => some (t, len)
  | _ => none

/-- The rest of the line stops an unquoted word. -/
private theorem lineStop_drop (skip : Nat) (s : Text) (hskip : skip ≤ s.length) :
    s.drop (wordLen lineStop skip s) = [] ∨
      lineStop (s.drop (wordLen lineStop skip s)) = true := by
  induction s generalizing skip with
  | nil => simp
  | cons c s ih =>
      cases skip with
      | succ skip => simpa [wordLen] using ih skip (by simpa using hskip)
      | zero =>
          by_cases hline : lineStop (c :: s) = true
          · simp [wordLen, hline]
          · simp only [wordLen, hline, Bool.false_eq_true, if_false, List.drop_succ_cons]
            exact ih _ (groupSkip_le c s)

/-- A word is not empty. -/
private theorem wordLen_pos {c : Char} {s : Text} (hline : lineStop (c :: s) = false) :
    ∃ n, wordLen lineStop 0 (c :: s) = n + 1 := by
  simp [wordLen, hline]

private theorem nextToken_word {c : Char} {s u : Text} (hq : isQuote c = false)
    (hline : lineStop (c :: s) = false) (herr : c = '2' → s.head? ≠ some '>')
    (hcut : CutAt u ((c :: s).drop (wordLen lineStop 0 (c :: s)))) :
    nextToken ((c :: s).take (wordLen lineStop 0 (c :: s)) ++ u) =
      some (.word ⟨(c :: s).take (wordLen lineStop 0 (c :: s)), .unquoted⟩,
        wordLen lineStop 0 (c :: s)) := by
  have hlen := wordLen_cut 0 (c :: s) u (Nat.zero_le _) hcut.pre
    (hcut.stops (lineStop_drop 0 (c :: s) (Nat.zero_le _)))
  have hle := wordLen_le lineStop 0 (c :: s)
  obtain ⟨n, hn⟩ := wordLen_pos hline
  rw [hn] at hlen hcut hle ⊢
  rw [List.take_succ_cons, List.cons_append] at hlen ⊢
  have hspecial : c ≠ '|' ∧ c ≠ '<' ∧ c ≠ '>' ∧ c ≠ '&' := by
    have hnot := (lineStop_cons c s).not.mp (by simp [hline])
    exact ⟨fun h => hnot (by simp [h]), fun h => hnot (by simp [h]), fun h => hnot (by simp [h]),
      fun h => hnot (by simp [h])⟩
  have hsecond : c = '2' → (s.take n ++ u).head? ≠ some '>' := by
    intro hc
    have hpre : s.take n ++ u <+: s := by
      conv_rhs => rw [← List.take_append_drop n s]
      exact (List.prefix_append_right_inj _).mpr (by simpa using hcut.pre)
    obtain ⟨v, hv⟩ := hpre
    have hs := herr hc
    rw [← hv] at hs
    cases hw : s.take n ++ u with
    | nil => simp
    | cons d w => simpa [hw] using hs
  rw [nextToken_of_not_op _ hspecial hsecond, scanWord, scanWith_unquoted wordStop _ hq, hlen,
    List.take_succ_cons, List.take_left' (List.length_take_of_le (by simpa using hle))]

private theorem nextToken_simpleOp {c : Char} {s : Text} {k : TokKind} {len : Nat}
    (hq : isQuote c = false) (h : tryConsumeSimpleOp (c :: s) = .op k len) :
    nextToken (c :: s) = some (.op k, len) := by
  simp [nextToken, hq, h]

private theorem nextToken_errRedir (s : Text) :
    nextToken ('2' :: '>' :: s) =
      match tryConsumeErrRedir ('2' :: '>' :: s) with
      | .op k len => some (.op k, len)
      | .invalid => none
      | .no => some (.word (scanWord ('2' :: '>' :: s)).1, (scanWord ('2' :: '>' :: s)).2) :=
  rfl

/-- What follows `2>&1` in a piece of the line. -/
private theorem errToOutEnd_cut {u rest : Text} (hcut : CutAt u rest) :
    errToOutEnd u = true ↔ errToOutEnd rest = true ∨ rest.head? = some ';' := by
  cases u with
  | nil =>
      refine iff_of_true rfl ?_
      cases rest with
      | nil => exact Or.inl rfl
      | cons d rest =>
          rcases hcut.ends rfl d rfl with hsp | hconn
          · exact Or.inl (by simp [errToOutEnd, hsp])
          · unfold connAt at hconn
            split at hconn <;> simp_all [errToOutEnd]
  | cons d u =>
      obtain ⟨v, rfl⟩ := hcut.pre
      have hd : d ≠ ';' := by
        rintro rfl
        simpa using hcut.conn (by simp [connAt])
      simp [errToOutEnd, hd]

/-- **`tokenize` reads the lexeme** from a piece of the line. -/
theorem nextToken_lexeme {s u : Text} {t : LTok} {len : Nat} (hs : Shape s t len)
    (hconn : ∀ k, t ≠ .conn k) (hcut : CutAt u (s.drop len)) :
    nextToken (s.take len ++ u) = readAs len t := by
  cases hs with
  | closed q body rest hq h =>
      have hraw : (q :: body ++ q :: rest).take (body.length + 2) = q :: body ++ [q] := by
        simp [List.take_append]
      have hscan := scanWith_quoted wordStop q body u hq h
      rw [hraw, List.append_assoc, List.cons_append, List.singleton_append,
        nextToken_of_isQuote _ hq, scanWord, ← List.cons_append, hscan]
      rfl
  | unclosed q body hq h =>
      have hnil : u = [] := by simpa using hcut.pre
      have hfree : body.takeWhile (fun d => d != q) = body := by
        rw [List.takeWhile_eq_self_iff]
        intro d hd
        have hne : d ≠ q := fun heq => h (heq ▸ hd)
        simpa using hne
      rw [hnil, List.append_nil, List.take_of_length_le (by simp), nextToken_of_isQuote _ hq]
      simp [scanWord, scanWith, hq, hfree, readAs, Nat.add_comm]
  | conn k s h => exact absurd rfl (hconn k)
  | pipe rest h => rfl
  | lt rest h =>
      have hu := hcut.head?_ne h
      apply nextToken_simpleOp rfl
      cases u with
      | nil => rfl
      | cons d u =>
          unfold tryConsumeSimpleOp
          split <;> simp_all
  | dless rest h =>
      have hu := hcut.head?_ne h
      apply nextToken_simpleOp rfl
      cases u with
      | nil => rfl
      | cons d u =>
          have hd : d ≠ '-' := by simpa using hu
          simp [tryConsumeSimpleOp, hd]
  | dlessdash rest => rfl
  | gt rest h =>
      have hu := hcut.head?_ne h
      apply nextToken_simpleOp rfl
      cases u with
      | nil => rfl
      | cons d u =>
          unfold tryConsumeSimpleOp
          split <;> simp_all
  | gtgt rest => rfl
  | ampgt rest => rfl
  | errgtgt rest => rfl
  | errgt rest h hamp =>
      have hu := hcut.head?_ne h
      have hop : tryConsumeErrRedir ('2' :: '>' :: u) = .op .errgt 2 := by
        cases u with
        | nil => rfl
        | cons d u =>
            have hd : d ≠ '&' := by
              -- an `&` here would be a connector, before which the piece ends
              rintro rfl
              obtain ⟨v, rfl⟩ := hcut.pre
              have hconn : connAt ('&' :: u ++ v) = none := by
                by_contra hne
                simpa using hcut.conn hne
              unfold connAt at hconn
              split at hconn <;> simp_all
            unfold tryConsumeErrRedir
            split <;> simp_all
      change nextToken ('2' :: '>' :: u) = _
      rw [nextToken_errRedir, hop]
      rfl
  | errtoout rest h =>
      have hend := (errToOutEnd_cut hcut).mpr h
      change nextToken ('2' :: '>' :: '&' :: '1' :: u) = _
      rw [nextToken_errRedir]
      simp [tryConsumeErrRedir, hend, readAs]
  | badTail rest h =>
      have hend := (errToOutEnd_cut hcut).not.mpr h
      change nextToken ('2' :: '>' :: '&' :: '1' :: u) = _
      rw [nextToken_errRedir]
      simp [tryConsumeErrRedir, hend, readAs]
  | badPath rest => rfl
  | word c s hq hline herr => exact nextToken_word hq hline herr hcut

/-! ## The connector scan over a lexeme -/

theorem noConnector_tail {c : Char} {s : Text} (h : NoConnector (c :: s)) : NoConnector s :=
  ⟨fun hmem => h.1 (List.mem_cons_of_mem _ hmem), fun hmem => h.2.1 (List.mem_cons_of_mem _ hmem),
    fun hin => h.2.2 (hin.trans (List.suffix_cons c s).isInfix)⟩

/-- Without connector bytes the scan finds nothing, whatever its state. -/
theorem findFrom_noConnector (s : Text) (h : NoConnector s) (p2 p1 q : Option Char) (skip : Nat) :
    findFrom p2 p1 q skip s = none := by
  induction s generalizing p2 p1 q skip with
  | nil => cases q <;> rfl
  | cons c s ih =>
      have hs := ih (noConnector_tail h)
      have hconn : connectorAt p2 p1 (c :: s) = none := by
        have hsemi : c ≠ ';' := fun heq => h.1 (by simp [heq])
        have hamp : c ≠ '&' := fun heq => h.2.1 (by simp [heq])
        have hbar : ∀ t, c :: s ≠ '|' :: '|' :: t := by
          intro t heq
          exact h.2.2 (heq ▸ (List.prefix_append ['|', '|'] t).isInfix)
        unfold connectorAt
        split <;> simp_all
      cases skip with
      | succ skip => simp [findFrom, hs]
      | zero =>
          cases q with
          | some q => simp [findFrom, hs]
          | none => simp [findFrom, hs, hconn]

/-- What the scan reports of a connector. -/
def reported (s : Text) : Option (Nat × Connector) := (connectorAt none none s).map (0, ·)

/-- The bytes behind do not make the rest look like the end of `2>&1`. -/
structure Clear (p : Option Char × Option Char) (s : Text) : Prop where
  amp : ¬ (p.1 = some '2' ∧ p.2 = some '>' ∧ ['&', '1'] <+: s)
  gt : ¬ (p.2 = some '2' ∧ ['>', '&', '1'] <+: s)

theorem clear_of_ne {p : Option Char × Option Char} (s : Text) (htwo : p.2 ≠ some '2')
    (hgt : p.2 ≠ some '>') : Clear p s :=
  ⟨fun h => hgt h.2.1, fun h => htwo h.1⟩

/-- A connector of the line and what is reported of it: `;;` keeps the position. -/
theorem connectorAt_of_connAt {s : Text} {k : Sep} (hk : connAt s = some k) :
    ∃ rest, s = k.print ++ rest ∧
      connectorAt none none s =
        some (if k = .seq ∧ rest.head? = some ';' then ⟨.always, 0, false⟩
          else ⟨k.next, k.print.length, k.isBg⟩) := by
  unfold connAt at hk
  split at hk <;> simp only [Option.some.injEq, reduceCtorEq] at hk <;> subst hk
  case h_1 rest => exact ⟨rest, rfl, rfl⟩
  case h_2 rest => exact ⟨rest, rfl, rfl⟩
  case h_3 rest =>
    refine ⟨rest, rfl, ?_⟩
    cases rest with
    | nil => rfl
    | cons d rest =>
        by_cases hd : d = ';'
        · subst hd
          rfl
        · simp [connectorAt, hd, Sep.next, Sep.isBg, Sep.print]
  case h_5 rest hand hgt =>
    refine ⟨rest, rfl, ?_⟩
    unfold connectorAt
    split <;> simp_all [Sep.next, Sep.isBg, Sep.print]

/-- The scan stops at a connector. -/
theorem scanAt_conn {p : Option Char × Option Char} {s : Text} {k : Sep} (hp : Clear p s)
    (hk : connAt s = some k) : scanAt p s = reported s := by
  obtain ⟨rest, rfl, hfound⟩ := connectorAt_of_connAt hk
  have hbehind : connectorAt p.1 p.2 (k.print ++ rest) = connectorAt none none (k.print ++ rest) := by
    cases k with
    | seq =>
        change connectorAt p.1 p.2 (';' :: rest) = connectorAt none none (';' :: rest)
        unfold connectorAt
        split <;> simp_all
    | and => rfl
    | or => rfl
    | bg =>
        have hone : ¬ (p.1 = some '2' ∧ p.2 = some '>' ∧ rest.head? = some '1') := by
          rintro ⟨htwo, hgt, hhead⟩
          apply hp.amp
          refine ⟨htwo, hgt, ?_⟩
          cases rest with
          | nil => simp at hhead
          | cons d rest =>
              obtain rfl : d = '1' := by simpa using hhead
              exact List.prefix_append ['&', '1'] rest
        change connectorAt p.1 p.2 ('&' :: rest) = connectorAt none none ('&' :: rest)
        unfold connectorAt
        split <;> simp_all
  have hscan : ∀ c t, isQuote c = false → c ≠ '$' → k.print ++ rest = c :: t →
      scanAt p (k.print ++ rest) = reported (k.print ++ rest) := by
    intro c t hq hd heq
    rw [heq] at hbehind hfound ⊢
    simp [scanAt, findFrom, hq, hd, hbehind, hfound, reported]
  cases k with
  | seq => exact hscan ';' rest rfl (by decide) rfl
  | bg => exact hscan '&' rest rfl (by decide) rfl
  | and => exact hscan '&' ('&' :: rest) rfl (by decide) rfl
  | or => exact hscan '|' ('|' :: rest) rfl (by decide) rfl

/-- **The connector scan passes over the lexeme.** -/
theorem scanAt_lexeme {p : Option Char × Option Char} {s : Text} {t : LTok} {len : Nat}
    (hs : Shape s t len) (hconn : ∀ k, t ≠ .conn k) (htidy : Lexeme.Tidy ⟨t, s, len⟩) :
    scanAt p s = (scanAt (lookBehind p (s.take len)) (s.drop len)).map (shift len) := by
  cases hs with
  | closed q body rest hq h =>
      have hpass := passes_quoted q body rest hq h p
      have hraw : q :: body ++ q :: rest = (q :: body ++ [q]) ++ rest := by simp
      have hlen : (q :: body ++ [q]).length = body.length + 2 := by simp
      rw [hlen] at hpass
      rw [hraw, List.take_left' hlen, List.drop_left' hlen, hpass]
  | unclosed q body hq h =>
      rw [scanAt_openQuote q body hq h, List.drop_of_length_le (by simp)]
      rfl
  | conn k s h => exact absurd rfl (hconn k)
  | pipe rest h => exact passes_pipe rest h p
  | lt rest h => exact passes_ordinary rest rfl (by decide) (by decide) p
  | dless rest h => exact passes_plain ['<', '<'] rest (by simp [isQuote]) p
  | dlessdash rest => exact passes_plain ['<', '<', '-'] rest (by simp [isQuote]) p
  | gt rest h => exact passes_ordinary rest rfl (by decide) (by decide) p
  | gtgt rest => exact passes_plain ['>', '>'] rest (by simp [isQuote]) p
  | ampgt rest => exact passes_ampgt rest p
  | errgtgt rest => exact passes_plain ['2', '>', '>'] rest (by simp [isQuote]) p
  | errgt rest h hamp => exact passes_plain ['2', '>'] rest (by simp [isQuote]) p
  | errtoout rest h => exact passes_errtoout rest p
  | badTail rest h => exact passes_errtoout rest p
  | badPath rest =>
      exact (passes_plain ['2', '>'] _ (by simp [isQuote])).append (passes_ampgt rest) p
  | word c s hq hline herr =>
      obtain ⟨hquote | hno, -⟩ := htidy
      · exact findFrom_word 0 (c :: s) p (Nat.zero_le _) hquote
      · -- after a stray quote there is nothing to find
        have hdrop : ∀ (n : Nat) (t : Text), NoConnector t → NoConnector (t.drop n) := by
          intro n
          induction n with
          | zero => exact fun t ht => ht
          | succ n ih =>
              intro t ht
              cases t with
              | nil => exact ht
              | cons d t => exact ih t (noConnector_tail ht)
        rw [scanAt, scanAt, findFrom_noConnector _ hno, findFrom_noConnector _ (hdrop _ _ hno)]
        rfl

/-- After a lexeme the bytes behind are clear again. -/
theorem clear_lexeme {p : Option Char × Option Char} {s : Text} {t : LTok} {len : Nat}
    (hs : Shape s t len) (hconn : ∀ k, t ≠ .conn k) (htidy : Lexeme.Tidy ⟨t, s, len⟩)
    (hp : Clear p s) : Clear (lookBehind p (s.take len)) (s.drop len) := by
  cases hs with
  | closed q body rest hq h =>
      have hraw : q :: body ++ q :: rest = (q :: body ++ [q]) ++ rest := by simp
      have hlen : (q :: body ++ [q]).length = body.length + 2 := by simp
      have hlast := lookBehind_concat p (q :: body) q
      have hne : q ≠ '2' ∧ q ≠ '>' := by
        constructor <;> rintro rfl <;> contradiction
      rw [hraw, List.take_left' hlen, List.drop_left' hlen]
      exact clear_of_ne _ (by simpa [hlast] using hne.1) (by simpa [hlast] using hne.2)
  | unclosed q body hq h =>
      rw [List.drop_of_length_le (by simp)]
      exact ⟨by simp, by simp⟩
  | conn k s h => exact absurd rfl (hconn k)
  | pipe rest h => exact clear_of_ne _ (by simp) (by simp)
  | lt rest h => exact clear_of_ne _ (by simp) (by simp)
  | dless rest h => exact clear_of_ne _ (by simp) (by simp)
  | dlessdash rest => exact clear_of_ne _ (by simp) (by simp)
  | gt rest h =>
      refine ⟨?_, by simp⟩
      rintro ⟨htwo, -, hamp⟩
      exact hp.gt ⟨htwo, List.cons_prefix_cons.mpr ⟨rfl, hamp⟩⟩
  | gtgt rest => exact ⟨by simp, by simp⟩
  | ampgt rest => exact ⟨by simp, by simp⟩
  | errgtgt rest => exact ⟨by simp, by simp⟩
  | errgt rest h hamp => exact ⟨fun hclear => hamp.1 hclear.2.2, by simp⟩
  | errtoout rest h => exact clear_of_ne _ (by simp) (by simp)
  | badTail rest h => exact clear_of_ne _ (by simp) (by simp)
  | badPath rest => exact ⟨by simp, by simp⟩
  | word c s hq hline herr =>
      obtain ⟨n, hn⟩ := wordLen_pos hline
      rcases wordLen_last 0 (c :: s) (Nat.zero_le _) with hzero | ⟨u, d, hu, -, hd⟩
      · omega
      · have hlast : (lookBehind p ((c :: s).take (wordLen lineStop 0 (c :: s)))).2 = some d := by
          rw [hu, lookBehind_concat]
        refine ⟨by simp [hlast, hd], ?_⟩
        rintro ⟨htwo, hgt⟩
        apply htidy.2
        refine ⟨?_, hgt⟩
        rw [hlast] at htwo
        rw [Lexeme.raw, hu, List.getLast?_concat, htwo]

/-! ## The lexemes of a line -/

theorem Shape.pos {s : Text} {t : LTok} {len : Nat} (h : Shape s t len) : 0 < len := by
  cases h with
  | conn k s h => cases k <;> exact Nat.succ_pos _
  | word c s hq hline herr =>
      obtain ⟨n, hn⟩ := wordLen_pos hline
      omega
  | _ => exact Nat.succ_pos _

theorem Shape.le {s : Text} {t : LTok} {len : Nat} (h : Shape s t len) : len ≤ s.length := by
  cases h with
  | conn k s h =>
      obtain ⟨rest, rfl, -⟩ := connectorAt_of_connAt h
      simp
  | word c s hq hline herr => exact wordLen_le lineStop 0 (c :: s)
  | closed q body rest hq h =>
      simp only [List.cons_append, List.length_cons, List.length_append]
      omega
  | _ => simp

theorem Shape.connAt {s : Text} {k : Sep} {len : Nat} (h : Shape s (.conn k) len) :
    connAt s = some k := by
  cases h with
  | conn k s h => exact h

theorem Shape.connAt_eq_none {s : Text} {t : LTok} {len : Nat} (h : Shape s t len)
    (hconn : ∀ k, t ≠ .conn k) : LineScan.connAt s = none := by
  cases h with
  | conn k s h => exact absurd rfl (hconn k)
  | closed q body rest hq h =>
      unfold LineScan.connAt
      split <;> simp_all [isQuote]
  | unclosed q body hq h =>
      unfold LineScan.connAt
      split <;> simp_all [isQuote]
  | word c s hq hline herr =>
      unfold lineStop at hline
      unfold LineScan.connAt
      split <;> simp_all
  | pipe rest h => cases rest <;> simp_all [LineScan.connAt]
  | _ => rfl

/-- An unquoted word does not begin with `&`. -/
theorem Shape.unquoted_head {s text : Text} {t : LTok} {len : Nat} (h : Shape s t len)
    (ht : t = .tok (.word ⟨text, .unquoted⟩)) : text.head? ≠ some '&' := by
  cases h with
  | word c s hq hline herr =>
      obtain ⟨n, hn⟩ := wordLen_pos hline
      rw [hn, List.take_succ_cons] at ht
      obtain rfl : c :: s.take n = text := by simpa using ht
      rintro hamp
      obtain rfl : c = '&' := by simpa using hamp
      simp [lineStop] at hline
  | closed q body rest hq h => split_ifs at ht <;> simp at ht
  | unclosed q body hq h => split_ifs at ht <;> simp at ht
  | _ => simp at ht

theorem Shape.ampgt_raw {s : Text} {t : LTok} {len : Nat} (h : Shape s t len)
    (hamp : ['&', '>'] <+: s) : ['&', '>'] <+: s.take len := by
  obtain ⟨rest, rfl⟩ := hamp
  generalize hs : ['&', '>'] ++ rest = s at h
  cases h with
  | ampgt rest => exact List.prefix_append ['&', '>'] []
  | conn k s h =>
      subst hs
      simp [LineScan.connAt] at h
  | word c s hq hline herr =>
      obtain ⟨rfl, -⟩ := List.cons.inj hs
      simp [lineStop] at hline
  | closed q body rest hq h =>
      obtain ⟨rfl, -⟩ := List.cons.inj hs
      contradiction
  | unclosed q body hq h =>
      obtain ⟨rfl, -⟩ := List.cons.inj hs
      contradiction
  | _ => simp at hs

/-- A lexeme ends in a byte that is not blank. -/
theorem last_lexeme {s : Text} {t : LTok} {len : Nat} (hs : Shape s t len)
    (htidy : Lexeme.Tidy ⟨t, s, len⟩) : ∀ c ∈ (s.take len).getLast?, isspace c = false := by
  cases hs with
  | closed q body rest hq h =>
      have hraw : (q :: body ++ q :: rest).take (body.length + 2) = q :: body ++ [q] := by
        simp [List.take_append]
      rw [hraw, List.getLast?_concat]
      rintro c hc
      obtain rfl : q = c := by simpa using hc
      exact isspace_of_isQuote hq
  | unclosed q body hq h =>
      have htake : (q :: body).take (body.length + 1) = q :: body := List.take_of_length_le (by simp)
      have hends : (q :: body).getLast? = some q ∧ 1 < body.length + 1 ∨
          ∀ c ∈ (q :: body).getLast?, isspace c = false := by
        have hraw : ∀ t, Lexeme.raw ⟨t, q :: body, body.length + 1⟩ = q :: body := fun _ => htake
        split_ifs at htidy <;> simpa only [Lexeme.Tidy, hraw, List.head?_cons] using htidy
      rw [htake]
      rcases hends with ⟨hlast, hlen⟩ | hends
      · -- the last byte of an open word is not its quote
        cases body using List.reverseRecOn with
        | nil => simp at hlen
        | append_singleton body d =>
            rw [← List.cons_append, List.getLast?_concat] at hlast
            exact absurd (by simp [Option.some.inj hlast]) h
      · exact hends
  | word c s hq hline herr =>
      obtain ⟨n, hn⟩ := wordLen_pos hline
      rcases wordLen_last 0 (c :: s) (Nat.zero_le _) with hzero | ⟨u, d, hu, hd, -⟩
      · omega
      · rw [hu, List.getLast?_concat]
        rintro e he
        obtain rfl : d = e := by simpa using he
        exact hd
  | conn k s h =>
      obtain ⟨rest, rfl, -⟩ := connectorAt_of_connAt h
      rw [List.take_left' rfl]
      cases k <;> simp [Sep.print] <;> decide
  | _ => simp; decide

/-- The counter passes over what a lexeme took. -/
theorem lexFrom_drop (n : Nat) (s : Text) : lexFrom n s = lexFrom 0 (s.drop n) := by
  induction s generalizing n with
  | nil => cases n <;> rfl
  | cons c s ih =>
      cases n with
      | zero => rfl
      | succ n => simpa [lexFrom] using ih n

theorem lexFrom_blank {c : Char} (s : Text) (h : isspace c = true) :
    lexFrom 0 (c :: s) = lexFrom 0 s := by
  simp [lexFrom, h]

/-- The first lexeme and those after it. -/
theorem lexFrom_lexeme {c : Char} (s : Text) (h : isspace c = false) :
    ∃ t len, Shape (c :: s) t len ∧
      lexFrom 0 (c :: s) = ⟨t, c :: s, len⟩ :: lexFrom 0 ((c :: s).drop len) := by
  have hshape := shape_lexemeAt s h
  refine ⟨_, _, hshape, ?_⟩
  obtain ⟨n, hn⟩ := Nat.exists_eq_add_of_lt hshape.pos
  simp [lexFrom, h, lexFrom_drop _ s, hn]

end Petrush.Verified.Lexemes
