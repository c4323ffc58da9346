import Petrush.Verified.Keywords
import Petrush.Verified.Lexemes
import Petrush.Verified.Stages

/-!
# Cutting a line first, tokenizing it second

`parse_list_until` cuts a line at the connectors that a byte scan finds and
tokenizes each segment on its own.  On a line whose lexemes are tidy this gives
the list of one left-to-right scan.

## Main results

* `petrushParseList_eq_referenceList`: the two lists are equal on a tidy line, and
  no redirection target takes an operator's `&`.
* `strayQuote_swallows`: on other lines neither need hold.
-/

namespace Petrush.Verified.Splitting

open Petrush.Lib.CText
open Petrush.Mid.Ast
open Petrush.Mid.Lexer
open Petrush.Mid.Parser
open Petrush.Verified.Surface
open Petrush.Verified.Scanning
open Petrush.Verified.Connectors
open Petrush.Verified.LineScan
open Petrush.Verified.Lexemes
open Petrush.Verified.Keywords
open Petrush.Verified.Stages

/-! ## Segments -/

/-- The tokens of lexemes that are no connectors. -/
def collect : List LTok → Option (List Token)
  | [] => some []
  | .tok t :: rest => (collect rest).map (t :: ·)
  | _ => none

/-- The line up to its first connector: `u` holds the lexemes `xs`, blanks may
follow, then the rest `r`. -/
structure Segment (p : Option Char × Option Char) (s u : Text) (xs : List Lexeme) (r : Text) :
    Prop where
  text : ∃ w, (∀ c ∈ w, isspace c = true) ∧ s = u ++ (w ++ r)
  ends : ∀ c ∈ u.getLast?, isspace c = false
  cut : CutAt u s
  toks : tokenizeFrom 0 u = collect (xs.map Lexeme.tok)
  noConn : ∀ x ∈ xs, ∀ k, x.tok ≠ .conn k
  lexs : lexFrom 0 s = xs ++ lexFrom 0 r
  stop : r = [] ∨ connAt r ≠ none
  scan : scanAt p s = (reported r).map (shift (s.length - r.length))

theorem segment_nil (p : Option Char × Option Char) : Segment p [] [] [] [] where
  text := ⟨[], by simp, rfl⟩
  ends := by simp
  cut := ⟨List.nil_prefix, by simp, fun _ => rfl, by simp⟩
  toks := rfl
  noConn := by simp
  lexs := rfl
  stop := Or.inl rfl
  scan := rfl

theorem segment_conn {p : Option Char × Option Char} {s : Text} {k : Sep} (hp : Clear p s)
    (hk : connAt s = some k) : Segment p s [] [] s where
  text := ⟨[], by simp, rfl⟩
  ends := by simp
  cut := by
    have hconn : connAt s ≠ none := by simp [hk]
    refine ⟨List.nil_prefix, fun _ c _ => Or.inr hconn, fun _ => rfl, ?_⟩
    rintro ⟨t, rfl⟩
    simp [connAt] at hk
  toks := rfl
  noConn := by simp
  lexs := rfl
  stop := Or.inr (by simp [hk])
  scan := by rw [scanAt_conn hp hk, Nat.sub_self, map_shift_zero]

theorem Segment.length_le {p : Option Char × Option Char} {s u : Text} {xs : List Lexeme}
    {r : Text} (h : Segment p s u xs r) : r.length ≤ s.length := by
  obtain ⟨w, -, rfl⟩ := h.text
  simp only [List.length_append]
  omega

/-- A blank before the segment. -/
theorem Segment.blank {p : Option Char × Option Char} {c : Char} {s u : Text} {xs : List Lexeme}
    {r : Text} (hsp : isspace c = true) (h : Segment (p.2, some c) s u xs r) :
    ∃ u', Segment p (c :: s) u' xs r := by
  obtain ⟨w, hw, hs⟩ := h.text
  have hplain : isQuote c = false ∧ c ≠ '$' ∧ c ≠ ';' ∧ c ≠ '&' ∧ c ≠ '|' := by
    refine ⟨?_, ?_, ?_, ?_, ?_⟩
    · by_contra hq
      rw [isspace_of_isQuote (by simpa using hq)] at hsp
      contradiction
    all_goals
      rintro rfl
      contradiction
  have hscan : scanAt p (c :: s) = (reported r).map (shift ((c :: s).length - r.length)) := by
    have hle := h.length_le
    rw [scanAt_char hplain.1 hplain.2.1 (connectorAt_of_ne hplain.2.2 _ _ _), h.scan, map_shift,
      List.length_cons, Nat.sub_add_comm hle]
  have hconn : connAt (c :: s) = none := by
    unfold connAt
    split <;> simp_all
  have hamp : ¬ ['&', '>'] <+: c :: s := by
    intro hpre
    exact hplain.2.2.2.1 (List.cons_prefix_cons.mp hpre).1.symm
  have hlex : lexFrom 0 (c :: s) = xs ++ lexFrom 0 r := by rw [lexFrom_blank s hsp, h.lexs]
  by_cases hu : u = []
  · subst hu
    exact
      ⟨[],
        { text := ⟨c :: w, by simpa [hsp] using hw, by simp [hs]⟩
          ends := by simp
          cut := ⟨List.nil_prefix, fun _ d hd => Or.inl (by simp_all), fun _ => rfl,
            fun hpre => absurd hpre hamp⟩
          toks := h.toks
          noConn := h.noConn
          lexs := hlex
          stop := h.stop
          scan := hscan }⟩
  · exact
      ⟨c :: u,
        { text := ⟨w, hw, by simp [hs]⟩
          ends := by simpa [List.getLast?_cons, hu, List.getLast?_eq_some_getLast] using h.ends
          cut := ⟨List.cons_prefix_cons.mpr ⟨rfl, h.cut.pre⟩, by simp, fun hne => absurd hconn hne,
            fun hpre => absurd hpre hamp⟩
          toks := by simp [tokenizeFrom, hsp, h.toks]
          noConn := h.noConn
          lexs := hlex
          stop := h.stop
          scan := hscan }⟩

/-- A lexeme before the segment. -/
theorem Segment.lexeme {p : Option Char × Option Char} {c : Char} {s u : Text} {t : LTok}
    {len : Nat} {xs : List Lexeme} {r : Text} (hsp : isspace c = false)
    (hs : Shape (c :: s) t len) (hconn : ∀ k, t ≠ .conn k)
    (htidy : Lexeme.Tidy ⟨t, c :: s, len⟩)
    (hlex : lexFrom 0 (c :: s) = ⟨t, c :: s, len⟩ :: lexFrom 0 ((c :: s).drop len))
    (h : Segment (lookBehind p ((c :: s).take len)) ((c :: s).drop len) u xs r) :
    Segment p (c :: s) ((c :: s).take len ++ u) (⟨t, c :: s, len⟩ :: xs) r := by
  obtain ⟨n, rfl⟩ : ∃ n, len = n + 1 := Nat.exists_eq_add_one.mpr hs.pos
  have hnone := hs.connAt_eq_none hconn
  have hle := hs.le
  have hpre : (c :: s).take (n + 1) ++ u <+: c :: s := by
    conv_rhs => rw [← List.take_append_drop (n + 1) (c :: s)]
    exact (List.prefix_append_right_inj _).mpr h.cut.pre
  obtain ⟨w, hw, hrest⟩ := h.text
  refine
    { text := ⟨w, hw, ?_⟩
      ends := ?_
      cut := ⟨hpre, by simp, fun hne => absurd hnone hne, ?_⟩
      toks := ?_
      noConn := ?_
      lexs := by rw [hlex, h.lexs, List.cons_append]
      stop := h.stop
      scan := ?_ }
  · rw [List.append_assoc, ← hrest, List.take_append_drop]
  · by_cases hu : u = []
    · rw [hu, List.append_nil]
      exact last_lexeme hs htidy
    · rw [List.getLast?_append_of_ne_nil _ hu]
      exact h.ends
  · intro hamp
    exact (hs.ampgt_raw hamp).trans (List.prefix_append _ u)
  · have hnext := nextToken_lexeme hs hconn h.cut
    rw [List.take_succ_cons, List.cons_append] at hnext ⊢
    cases t with
    | conn k => exact absurd rfl (hconn k)
    | bad =>
        simp only [readAs] at hnext
        simp [tokenizeFrom, hsp, hnext, collect]
    | tok t =>
        have hlen : (s.take n).length = n := List.length_take_of_le (by simpa using hle)
        rw [tokenizeFrom_token hsp hnext, Nat.add_sub_cancel, List.drop_left' hlen, h.toks]
        rfl
  · rintro x hx
    rcases List.mem_cons.mp hx with rfl | hx
    · exact hconn
    · exact h.noConn x hx
  · have hsum := h.length_le
    have hdrop : ((c :: s).drop (n + 1)).length = (c :: s).length - (n + 1) := List.length_drop
    rw [scanAt_lexeme hs hconn htidy, h.scan, map_shift]
    congr 2
    omega

/-- **Every tidy line begins with a segment.** -/
theorem exists_segment (s : Text) (p : Option Char × Option Char) (hp : Clear p s)
    (htidy : TidyLine s) : ∃ u xs r, Segment p s u xs r := by
  induction hn : s.length using Nat.strong_induction_on generalizing s p with
  | _ n ih =>
      subst hn
      cases s with
      | nil => exact ⟨[], [], [], segment_nil p⟩
      | cons c s =>
          by_cases hsp : isspace c = true
          · have hc : Clear (p.2, some c) s := by
              apply clear_of_ne
              · rintro heq
                obtain rfl := Option.some.inj heq
                contradiction
              · rintro heq
                obtain rfl := Option.some.inj heq
                contradiction
            have htail : TidyLine s := by rwa [TidyLine, lexFrom_blank s hsp] at htidy
            obtain ⟨u, xs, r, h⟩ := ih s.length (by simp) s (p.2, some c) hc htail rfl
            obtain ⟨u', h'⟩ := h.blank hsp
            exact ⟨u', xs, r, h'⟩
          · have hsp' : isspace c = false := by simpa using hsp
            obtain ⟨t, len, hs, hlex⟩ := lexFrom_lexeme s hsp'
            by_cases hconn : ∀ k, t ≠ .conn k
            · have hfirst : Lexeme.Tidy ⟨t, c :: s, len⟩ := htidy _ (by rw [hlex]; simp)
              have hrest : TidyLine ((c :: s).drop len) :=
                fun x hx => htidy x (by rw [hlex]; exact List.mem_cons_of_mem _ hx)
              have hpos := hs.pos
              obtain ⟨u, xs, r, h⟩ := ih ((c :: s).drop len).length
                (by rw [List.length_drop, List.length_cons]; omega) _ _
                (clear_lexeme hs hconn hfirst hp) hrest rfl
              exact ⟨_, _, r, h.lexeme hsp' hs hconn hfirst hlex⟩
            · simp only [ne_eq, not_forall, not_not] at hconn
              obtain ⟨k, rfl⟩ := hconn
              exact ⟨[], [], c :: s, segment_conn hp hs.connAt⟩

/-! ## Items -/

theorem itemsOf_segment (next : RunCond) (toks : List Token) (xs rest : List LTok)
    (h : ∀ x ∈ xs, ∀ k, x ≠ .conn k) :
    itemsOf next toks (xs ++ rest) = (collect xs).bind fun ts => itemsOf next (toks ++ ts) rest := by
  induction xs generalizing toks with
  | nil => simp [collect]
  | cons x xs ih =>
      have hxs := fun toks => ih toks fun y hy => h y (List.mem_cons_of_mem _ hy)
      cases x with
      | conn k => exact absurd rfl (h (.conn k) (by simp) k)
      | bad => cases toks <;> rfl
      | tok t =>
          have hcons : itemsOf next toks (.tok t :: (xs ++ rest)) =
              itemsOf next (toks ++ [t]) (xs ++ rest) := by
            cases toks <;> rfl
          rw [List.cons_append, hcons, hxs, collect]
          cases collect xs <;> simp

/-- The connector at the start of a text. -/
theorem lexFrom_conn {s : Text} {k : Sep} (hk : connAt s = some k) :
    lexFrom 0 s = ⟨.conn k, s, k.print.length⟩ :: lexFrom 0 (s.drop k.print.length) := by
  obtain ⟨rest, hs, -⟩ := connectorAt_of_connAt hk
  obtain ⟨c, s', rfl, hsp⟩ : ∃ c s', s = c :: s' ∧ isspace c = false := by
    cases k <;> exact ⟨_, _, hs, rfl⟩
  obtain ⟨t, len, hshape, hlex⟩ := lexFrom_lexeme s' hsp
  have hconn : ¬ ∀ k, t ≠ .conn k := by
    intro hno
    rw [hshape.connAt_eq_none hno] at hk
    contradiction
  simp only [ne_eq, not_forall, not_not] at hconn
  obtain ⟨k', rfl⟩ := hconn
  obtain rfl : k' = k := Option.some.inj (hshape.connAt.symm.trans hk)
  cases hshape with
  | conn _ _ _ => exact hlex

/-! ## Lines without compound commands -/

/-- A compound command begins at the cursor. -/
def startsCompound (c : Cursor) : Bool :=
  (matchKwAt "if".toList c).isSome || (matchKwAt "while".toList c).isSome ||
    (matchKwAt "for".toList c).isSome || (matchKwAt "case".toList c).isSome ||
    (matchKwAt "[[".toList c).isSome || (matchKwAt "function".toList c).isSome ||
    looksLikeFnDef c

theorem compoundAt_eq_none {rec : ListParser} {c : Cursor} (h : startsCompound c = false) :
    compoundAt rec c = none := by
  simp only [startsCompound, Bool.or_eq_false_iff] at h
  simp only [compoundAt, h, Bool.false_eq_true, if_false]

/-- No lexeme of the line begins a compound command. -/
def NoCompound (line : Text) : Prop :=
  ∀ x ∈ lexFrom 0 line, ∀ before, startsCompound ⟨before, x.text⟩ = false

theorem NoCompound.first {s : Text} (h : NoCompound s) (hne : s ≠ [])
    (hhead : ∀ c ∈ s.head?, isspace c = false) (before : Text) :
    startsCompound ⟨before, s⟩ = false := by
  cases s with
  | nil => contradiction
  | cons c s =>
      obtain ⟨t, len, -, hfirst⟩ := lexFrom_lexeme s (hhead c rfl)
      exact h ⟨t, c :: s, len⟩ (by rw [hfirst]; exact List.mem_cons_self) before

/-! ## The list of a line -/

/-- What the scan sees behind a cursor. -/
def behind (before : Text) : Option Char × Option Char := (before.tail.head?, before.head?)

/-- The blanks before an item. -/
theorem skipWsFrom_spec (b s : Text) (hp : Clear (behind b) s) :
    ∃ b' s', skipWsFrom b s = ⟨b', s'⟩ ∧ lexFrom 0 s' = lexFrom 0 s ∧ Clear (behind b') s' ∧
      s'.length ≤ s.length ∧ ∀ c ∈ s'.head?, isspace c = false := by
  induction s generalizing b with
  | nil => exact ⟨b, [], rfl, rfl, hp, Nat.le_refl _, by simp⟩
  | cons c s ih =>
      by_cases hsp : isspace c = true
      · have hc : Clear (behind (c :: b)) s := by
          apply clear_of_ne
          · rintro heq
            obtain rfl : c = '2' := Option.some.inj heq
            contradiction
          · rintro heq
            obtain rfl : c = '>' := Option.some.inj heq
            contradiction
        obtain ⟨b', s', hskip, hlex, hclear, hlen, hhead⟩ := ih (c :: b) hc
        refine ⟨b', s', ?_, ?_, hclear, Nat.le_succ_of_le hlen, hhead⟩
        · simp [skipWsFrom, hsp, hskip]
        · rw [hlex, lexFrom_blank s hsp]
      · have hsp' : isspace c = false := by simpa using hsp
        exact ⟨b, c :: s, by simp [skipWsFrom, hsp'], rfl, hp, Nat.le_refl _, by simpa using hsp'⟩

/-- One turn of the list loop where a pipeline begins. -/
theorem parseListUntil_pipeline (n : Nat) (next : RunCond) {c c' : Cursor}
    (hskip : skipWsPos c = c') (hne : c'.after ≠ []) (hno : startsCompound c' = false) :
    parseListUntil (n + 1) [] false next c =
      listAfterItem (parseListUntil n) [] false (parsePipelineItem next c') := by
  simp only [parseListUntil, hskip, hne, peekKwMask, List.any_nil, parseItem,
    compoundAt_eq_none hno, Bool.false_eq_true, if_false]

/-- The text of an item: the segment without the blanks after it. -/
theorem Segment.trim_take {p : Option Char × Option Char} {s u : Text} {xs : List Lexeme}
    {r : Text} (h : Segment p s u xs r) (hhead : ∀ c ∈ s.head?, isspace c = false) :
    trim isspace (s.take (s.length - r.length)) = u := by
  obtain ⟨w, hw, hs⟩ := h.text
  have htake : s.take (s.length - r.length) = u ++ w := by
    have hlen : s.length - r.length = (u ++ w).length := by
      rw [hs]
      simp only [List.length_append]
      omega
    rw [hlen, hs, ← List.append_assoc, List.take_left]
  have huhead : ∀ c ∈ u.head?, isspace c = false := by
    cases u with
    | nil => simp
    | cons d u => simpa [hs] using hhead
  rw [htake, trim_append_tail hw, trim_eq_self huhead h.ends]

/-- The first item of a line is empty only before a connector. -/
theorem Segment.nil_iff {p : Option Char × Option Char} {s u : Text} {xs : List Lexeme}
    {r : Text} (h : Segment p s u xs r) (hhead : ∀ c ∈ s.head?, isspace c = false) :
    u = [] ↔ xs = [] := by
  have htoks := h.toks
  constructor
  · rintro rfl
    cases xs with
    | nil => rfl
    | cons x xs =>
        have hx := h.noConn x (by simp)
        cases ht : x.tok <;> simp_all [tokenizeFrom, collect]
  · rintro rfl
    obtain ⟨w, -, hs⟩ := h.text
    cases u with
    | nil => rfl
    | cons d u =>
        have hblank := isspace_of_tokenizeFrom_nil (d :: u) htoks d (by simp)
        have hd := hhead d (by simp [hs])
        rw [hd] at hblank
        contradiction

/-- The pipeline of a segment. -/
theorem Segment.pipeline {p : Option Char × Option Char} {s u : Text} {xs : List Lexeme}
    {r : Text} (h : Segment p s u xs r) :
    parsePipeline u = (collect (xs.map Lexeme.tok)).bind pipelineOf := by
  rw [parsePipeline, tokenize, h.toks]

/-- The item of a segment, with the cursor at the rest of the line. -/
theorem Segment.item {b s u : Text} {xs : List Lexeme} {r : Text} (next : RunCond)
    (h : Segment (behind b) s u xs r) (hhead : ∀ c ∈ s.head?, isspace c = false) (hu : u ≠ []) :
    ∃ b', parsePipelineItem next ⟨b, s⟩ =
      (parsePipeline u).map fun pl =>
        match connectorAt none none r with
        | some conn =>
            .item ⟨.pipeline pl, next, conn.bg⟩ conn.cond true (Cursor.advance conn.len ⟨b', r⟩)
        | none => .item ⟨.pipeline pl, next, false⟩ .always false ⟨b', r⟩ := by
  obtain ⟨w, hw, hs⟩ := h.text
  have hlen : s.length - r.length = (u ++ w).length := by
    rw [hs]
    simp only [List.length_append]
    omega
  have hadvance : ∀ n, Cursor.advance ((u ++ w).length + n) ⟨b, s⟩ =
      Cursor.advance n ⟨(u ++ w).reverse ++ b, r⟩ := by
    intro n
    rw [hs, ← List.append_assoc, advance_append_add]
  have htrim := h.trim_take hhead
  have hscan := h.scan
  rw [hlen] at htrim hscan
  refine ⟨(u ++ w).reverse ++ b, ?_⟩
  unfold parsePipelineItem
  rw [findListConnector_eq]
  change scanAt (b.tail.head?, b.head?) s = _ at hscan
  rw [hscan, reported]
  cases hconn : connectorAt none none r with
  | some conn =>
      simp only [Option.map_some, shift_apply, Nat.zero_add, Option.getD_some, htrim, hu, if_false,
        hadvance]
      cases parsePipeline u <;> rfl
  | none =>
      -- the segment ends with the line
      have hr : r = [] := by
        rcases h.stop with hr | hr
        · exact hr
        · obtain ⟨k, hk⟩ := Option.ne_none_iff_exists'.mp hr
          obtain ⟨_, -, hfound⟩ := connectorAt_of_connAt hk
          rw [hconn] at hfound
          contradiction
      have hall : s.length = (u ++ w).length + 0 := by simpa [hr] using hlen
      have hsall : s.take s.length = s.take (u ++ w).length := by rw [hall, Nat.add_zero]
      simp only [Option.map_none, Option.getD_none, hsall, htrim, hu, if_false]
      rw [hall, hadvance]
      cases parsePipeline u <;> rfl

/-- Before a connector there must be an item. -/
theorem Segment.noItem {b s : Text} {xs : List Lexeme} {r : Text} (next : RunCond)
    (h : Segment (behind b) s [] xs r) (hhead : ∀ c ∈ s.head?, isspace c = false) {k : Sep}
    (hk : connAt r = some k) : parsePipelineItem next ⟨b, s⟩ = none := by
  have htrim := h.trim_take hhead
  have hscan := h.scan
  obtain ⟨_, -, hfound⟩ := connectorAt_of_connAt hk
  change scanAt (b.tail.head?, b.head?) s = _ at hscan
  rw [reported, hfound] at hscan
  unfold parsePipelineItem
  rw [findListConnector_eq, hscan]
  simp [htrim]

theorem collect_eq_nil {xs : List LTok} (h : collect xs = some []) : xs = [] := by
  cases xs with
  | nil => rfl
  | cons x xs => cases x <;> simp [collect] at h

/-- The items of tokens with a connector after them. -/
theorem itemsOf_conn {next : RunCond} {toks : List Token} {k : Sep} {rest : List LTok}
    (h : toks ≠ []) :
    itemsOf next toks (.conn k :: rest) =
      (pipelineOf toks).bind fun pl =>
        (itemsOf k.next [] rest).map (⟨.pipeline pl, next, k.isBg⟩ :: ·) := by
  cases toks with
  | nil => contradiction
  | cons t toks =>
      rw [itemsOf]
      · cases pipelineOf (t :: toks) <;> cases itemsOf k.next [] rest <;> rfl
      · exact h

theorem itemsOf_end {next : RunCond} {toks : List Token} (h : toks ≠ []) :
    itemsOf next toks [] = (pipelineOf toks).map fun pl => [⟨.pipeline pl, next, false⟩] := by
  cases toks with
  | nil => contradiction
  | cons t toks => rfl

theorem itemsOf_conn_first (next : RunCond) {s : Text} {k : Sep} (hk : connAt s = some k) :
    itemsOf next [] ((lexFrom 0 s).map Lexeme.tok) = none := by
  rw [lexFrom_conn hk]
  rfl

/-- Behind a connector nothing looks like the start of `2>&1`. -/
theorem clear_sep (k : Sep) (b s : Text) : Clear (behind (k.print.reverse ++ b)) s := by
  cases k <;> exact clear_of_ne s (by simp [behind, Sep.print]) (by simp [behind, Sep.print])

/-- **The items the parser makes are those of the lexemes.** -/
theorem parseListUntil_eq (n : Nat) (b s : Text) (next : RunCond) (hn : s.length < n)
    (hp : Clear (behind b) s) (htidy : TidyLine s) (hcomp : NoCompound s) :
    (parseListUntil n [] false next ⟨b, s⟩).map Prod.fst =
      itemsOf next [] ((lexFrom 0 s).map Lexeme.tok) := by
  induction n generalizing b s next with
  | zero => omega
  | succ n ih =>
      obtain ⟨b', s', hskip, hlex, hclear, hlen, hhead⟩ := skipWsFrom_spec b s hp
      rw [TidyLine, ← hlex] at htidy
      rw [NoCompound, ← hlex] at hcomp
      rw [← hlex]
      clear hlex hp
      have hpos : skipWsPos ⟨b, s⟩ = ⟨b', s'⟩ := hskip
      by_cases hs' : s' = []
      · subst hs'
        simp only [parseListUntil, hpos, if_true, lexFrom, List.map_nil, itemsOf]
        by_cases hnext : next = .always <;> simp [hnext]
      · obtain ⟨u, xs, r, h⟩ := exists_segment s' (behind b') hclear htidy
        rw [parseListUntil_pipeline n next hpos hs' (NoCompound.first hcomp hs' hhead b'), h.lexs,
          List.map_append, itemsOf_segment _ _ _ _ (by simpa using h.noConn)]
        have hrest : TidyLine r ∧ NoCompound r := by
          have hmem : ∀ x ∈ lexFrom 0 r, x ∈ lexFrom 0 s' := by
            intro x hx
            rw [h.lexs]
            exact List.mem_append_right xs hx
          exact ⟨fun x hx => htidy x (hmem x hx), fun x hx => hcomp x (hmem x hx)⟩
        obtain ⟨w, hw, hs⟩ := h.text
        by_cases hu : u = []
        · -- the line begins with a connector
          obtain rfl := (h.nil_iff hhead).mp hu
          subst hu
          have hr : connAt r ≠ none := by
            cases w with
            | cons d w =>
                have hblank := hw d (by simp)
                rw [hhead d (by simp [hs])] at hblank
                contradiction
            | nil =>
                obtain rfl : s' = r := hs
                cases s' with
                | nil => exact absurd rfl hs'
                | cons c t =>
                    have hends := h.cut.ends rfl c (by simp)
                    rw [hhead c (by simp)] at hends
                    simpa using hends
          obtain ⟨k, hk⟩ := Option.ne_none_iff_exists'.mp hr
          rw [h.noItem next hhead hk]
          exact (itemsOf_conn_first next hk).symm
        · have hshort : r.length < s'.length := by
            have hpos := List.length_pos_iff.mpr hu
            rw [hs]
            simp only [List.length_append]
            omega
          obtain ⟨b'', hitem⟩ := h.item next hhead hu
          rw [hitem, h.pipeline]
          cases hcollect : collect (xs.map Lexeme.tok) with
          | none => rfl
          | some ts =>
              have hts : ts ≠ [] := by
                rintro rfl
                have hxs := collect_eq_nil hcollect
                exact hu ((h.nil_iff hhead).mpr (by simpa using hxs))
              simp only [Option.bind_some, List.nil_append]
              cases hr : connAt r with
              | none =>
                  obtain rfl : r = [] := by simpa [hr] using h.stop
                  rw [show (lexFrom 0 []).map Lexeme.tok = [] from rfl, itemsOf_end hts]
                  cases pipelineOf ts <;> rfl
              | some k =>
                  obtain ⟨t, rfl, hfound⟩ := connectorAt_of_connAt hr
                  rw [hfound, lexFrom_conn hr, List.drop_left, List.map_cons, itemsOf_conn hts]
                  cases hpl : pipelineOf ts with
                  | none => rfl
                  | some pl =>
                      have hgo : ∀ it next' c,
                          (listAfterItem (parseListUntil n) [] false
                            (some (.item it next' true c))).map Prod.fst =
                          ((parseListUntil n [] false next' c).map Prod.fst).map (it :: ·) := by
                        intro it next' c
                        cases hrec : parseListUntil n [] false next' c <;>
                          simp [listAfterItem, hrec]
                      simp only [Option.map_some, Option.bind_some, hgo]
                      by_cases hseq : k = .seq ∧ t.head? = some ';'
                      · -- `;;` is read again, and nothing stands before it
                        obtain ⟨rfl, hsemi⟩ := hseq
                        have hclear' : Clear (behind b'') (Sep.seq.print ++ t) :=
                          ⟨by simp [Sep.print], by simp [Sep.print]⟩
                        have ht : connAt t = some .seq := by
                          cases t with
                          | nil => simp at hsemi
                          | cons d t =>
                              obtain rfl : d = ';' := by simpa using hsemi
                              rfl
                        rw [if_pos ⟨rfl, hsemi⟩]
                        simp only [Cursor.advance]
                        rw [ih b'' _ .always (by omega) hclear' hrest.1 hrest.2,
                          itemsOf_conn_first _ hr, itemsOf_conn_first _ ht]
                        rfl
                      · have hlater : TidyLine t ∧ NoCompound t := by
                          have hmem : ∀ x ∈ lexFrom 0 t, x ∈ lexFrom 0 (k.print ++ t) := by
                            intro x hx
                            rw [lexFrom_conn hr, List.drop_left]
                            exact List.mem_cons_of_mem _ hx
                          exact ⟨fun x hx => hrest.1 x (hmem x hx),
                            fun x hx => hrest.2 x (hmem x hx)⟩
                        rw [if_neg hseq]
                        simp only [advance_append]
                        rw [ih _ t k.next (by simp at hshort; omega) (clear_sep k b'' t) hlater.1
                          hlater.2]

/-! ## Redirection targets -/

/-- The paths the pipelines of a list open. -/
def targets (items : PList) : List Text :=
  items.flatMap fun it =>
    match it.kind with
    | .pipeline pl => pl.cmds.flatMap cmdTargets
    | _ => []

theorem itemsOf_targets {next : RunCond} {toks : List Token} {xs : List LTok} {items : PList}
    {path : Text} (h : itemsOf next toks xs = some items) (hpath : path ∈ targets items) :
    ∃ q, Token.word ⟨path, q⟩ ∈ toks ∨ LTok.tok (.word ⟨path, q⟩) ∈ xs := by
  fun_induction itemsOf next toks xs generalizing items with
  | case1 =>
      obtain rfl := Option.some.inj h
      simp [targets] at hpath
  | case2 => contradiction
  | case3 next toks hne =>
      obtain ⟨pl, hpl, rfl⟩ := Option.map_eq_some_iff.mp h
      obtain ⟨q, hq⟩ := pipelineOf_targets hpl (by simpa [targets] using hpath)
      exact ⟨q, Or.inl hq⟩
  | case4 next toks t rest ih =>
      obtain ⟨q, hq⟩ := ih h hpath
      refine ⟨q, ?_⟩
      rcases hq with hq | hq
      · rcases List.mem_append.mp hq with hq | hq
        · exact Or.inl hq
        · exact Or.inr (by simp [List.mem_singleton.mp hq])
      · exact Or.inr (List.mem_cons_of_mem _ hq)
  | case5 => contradiction
  | case6 => contradiction
  | case7 next toks k rest hne ih =>
      simp only [Option.bind_eq_bind, Option.bind_eq_some_iff, Option.some.injEq] at h
      obtain ⟨pl, hpl, later, hlater, rfl⟩ := h
      simp only [targets, List.flatMap_cons, List.mem_append] at hpath
      rcases hpath with hpath | hpath
      · obtain ⟨q, hq⟩ := pipelineOf_targets hpl hpath
        exact ⟨q, Or.inl hq⟩
      · obtain ⟨q, hq⟩ := ih hlater hpath
        rcases hq with hq | hq
        · simp at hq
        · exact ⟨q, Or.inr (List.mem_cons_of_mem _ hq)⟩

/-- An unquoted word does not begin with `&`. -/
theorem unquoted_not_amp (n : Nat) (s : Text) :
    ∀ x ∈ lexFrom n s, ∀ text, x.tok = .tok (.word ⟨text, .unquoted⟩) →
      text.head? ≠ some '&' := by
  induction s generalizing n with
  | nil => cases n <;> simp [lexFrom]
  | cons c s ih =>
      cases n with
      | succ n => exact ih n
      | zero =>
          by_cases hsp : isspace c = true
          · rw [lexFrom_blank s hsp]
            exact ih 0
          · have hsp' : isspace c = false := by simpa using hsp
            intro x hx text htext
            simp only [lexFrom, hsp', Bool.false_eq_true, if_false, List.mem_cons] at hx
            rcases hx with rfl | hx
            · exact (shape_lexemeAt s hsp').unquoted_head htext
            · exact ih _ x hx text htext

/-! ## Main results -/

/-- **Splitting and tokenizing agree** on a tidy line without compound commands:
the list is that of one scan of the whole line, and a redirection target that
begins with `&` was written between quotes. -/
theorem petrushParseList_eq_referenceList (line : Text) (htidy : TidyLine line)
    (hcomp : NoCompound line) :
    petrushParseList line = referenceList line ∧
      ∀ items, petrushParseList line = some items →
        ∀ path ∈ targets items, path.head? = some '&' →
          ∃ q, q ≠ .unquoted ∧ ∃ x ∈ lexFrom 0 line, x.tok = .tok (.word ⟨path, q⟩) := by
  have heq : petrushParseList line = referenceList line :=
    parseListUntil_eq (line.length + 1) [] line .always (Nat.lt_succ_self _)
      ⟨by simp [behind], by simp [behind]⟩ htidy hcomp
  refine ⟨heq, ?_⟩
  intro items hitems path hpath hamp
  rw [heq] at hitems
  obtain ⟨q, hq⟩ := itemsOf_targets hitems hpath
  have hmem : LTok.tok (.word ⟨path, q⟩) ∈ (lexFrom 0 line).map Lexeme.tok := by
    rcases hq with hq | hq
    · simp at hq
    · exact hq
  obtain ⟨x, hx, hxtok⟩ := List.mem_map.mp hmem
  refine ⟨q, ?_, x, hx, hxtok⟩
  rintro rfl
  exact unquoted_not_amp 0 line x hx path hxtok hamp

theorem petrushParseList_eq_referenceList_mixed :
    petrushParseList "a 'b;c' 2>&1 && d &>e; f $(g;h) &".toList =
      referenceList "a 'b;c' 2>&1 && d &>e; f $(g;h) &".toList :=
  (petrushParseList_eq_referenceList _ (by unfold TidyLine; decide)
    fun x hx before => by
      have hall : (lexFrom 0 "a 'b;c' 2>&1 && d &>e; f $(g;h) &".toList).all
          (fun x => !startsCompound ⟨before, x.text⟩) = true := rfl
      simpa using List.all_eq_true.mp hall x hx).1

/-- A quote inside a word opens a quoted span for the connector scan only, and a
`2` that ends a word makes the `&` of `>&1` part of the target. -/
theorem strayQuote_swallows :
    NoCompound "echo don't; echo x".toList ∧
      petrushParseList "echo don't; echo x".toList ≠ referenceList "echo don't; echo x".toList ∧
        (petrushParseList "x12>&1".toList).map targets = some ["&1".toList] ∧
          referenceList "x12>&1".toList = none := by
  refine ⟨?_, ?_, rfl, rfl⟩
  · intro x hx before
    have hall : (lexFrom 0 "echo don't; echo x".toList).all
        (fun x => !startsCompound ⟨before, x.text⟩) = true := rfl
    simpa using List.all_eq_true.mp hall x hx
  · intro heq
    have hcode : (petrushParseList "echo don't; echo x".toList).map List.length = some 1 := rfl
    have hscan : (referenceList "echo don't; echo x".toList).map List.length = some 2 := rfl
    rw [heq, hscan] at hcode
    contradiction

end Petrush.Verified.Splitting
