import Petrush.Verified.Keywords

/-!
# Printed items through the parser

Each construct of the grammar read back from its printed tokens, given that the
lists inside it are.  `ListOk` says so of an inner list, for every stop keyword
it may run up to.
-/

namespace Petrush.Verified.Compounds

open Petrush.Lib.CText
open Petrush.Mid.Ast
open Petrush.Mid.Lexer
open Petrush.Mid.Parser
open Petrush.Verified.Connectors
open Petrush.Verified.Scanning
open Petrush.Verified.Surface
open Petrush.Verified.Segments
open Petrush.Verified.Keywords

/-- Tokens with one blank between them. -/
def unspaced : List Text → Text
  | [] => []
  | t :: ts => t ++ spaced ts

theorem spaced_eq_blank_unspaced {ts : List Text} (h : ts ≠ []) :
    spaced ts = ' ' :: unspaced ts := by
  cases ts with
  | nil => contradiction
  | cons t ts => rfl

theorem length_le_spaced (ts : List Text) : ts.length ≤ (spaced ts).length := by
  induction ts with
  | nil => simp
  | cons t ts ih =>
      simp only [spaced_cons, List.length_cons, List.length_append]
      omega

/-! ## No opening parenthesis -/

/-- No `(` comes next. -/
def NoParen (r : Text) : Prop := ∀ b, matchMarkAt ['('] ⟨b, r⟩ = none

theorem noParen_nil : NoParen [] := fun _ => rfl

theorem noParen_token {c : Char} (s : Text) (hsp : isspace c = false) (hc : c ≠ '(') :
    NoParen (' ' :: c :: s) := by
  intro b
  rw [matchMarkAt_blank]
  exact matchMarkAt_of_head hsp hc

theorem noParen_sep (sep : Sep) (r : Text) : NoParen (' ' :: (sep.print ++ r)) := by
  cases sep <;> exact noParen_token _ (by decide) (by decide)

theorem noParen_print (t : STok) (r : Text) : NoParen (' ' :: (t.print ++ r)) := by
  cases t with
  | op k => cases k <;> exact noParen_token _ (by decide) (by decide)
  | word w =>
      obtain ⟨c, s, hc, hhead⟩ := print_head w
      obtain ⟨c', s', hc', hsp⟩ := print_head_not_blank (.word w)
      have hne : c ≠ '(' := by
        rcases hhead with hq | hw
        · rintro rfl
          contradiction
        · exact ((isWordChar_iff c).mp hw).2.2.2.2.2.2.2.2.1
      obtain ⟨rfl, rfl⟩ := List.cons.inj (hc'.symm.trans hc)
      simp only [STok.print, hc, List.cons_append]
      exact noParen_token _ hsp hne

/-! ## Function names -/

theorem isWordChar_of_isFnNameChar {c : Char} (h : isFnNameChar c = true) :
    isWordChar c = true := by
  have hne : ∀ d : Char, isFnNameChar d = false → c ≠ d := by
    rintro d hd rfl
    rw [hd] at h
    contradiction
  have hsp : isspace c = false := by
    have hblank : c ≠ ' ' := hne ' ' (by decide)
    have hrange : ¬ (9 ≤ c.toNat ∧ c.toNat ≤ 13) := by
      rintro ⟨hlo, hhi⟩
      have hval : c.toNat = 9 ∨ c.toNat = 10 ∨ c.toNat = 11 ∨ c.toNat = 12 ∨ c.toNat = 13 := by
        omega
      have heq : ∀ n, c.toNat = n → c = Char.ofNat n := by
        rintro n rfl
        exact (Char.ofNat_toNat c).symm
      rcases hval with hv | hv | hv | hv | hv <;>
        exact hne _ (by decide) (heq _ hv)
    simp only [isspace, Bool.or_eq_false_iff, beq_eq_false_iff_ne, ne_eq, Bool.and_eq_false_iff,
      decide_eq_false_iff_not]
    refine ⟨hblank, ?_⟩
    omega
  refine (isWordChar_iff c).mpr ⟨hsp, ?_, ?_⟩
  · simp only [isQuote, Bool.or_eq_false_iff, beq_eq_false_iff_ne, ne_eq]
    exact ⟨hne _ (by decide), hne _ (by decide)⟩
  · refine ⟨hne _ ?_, hne _ ?_, hne _ ?_, hne _ ?_, hne _ ?_, hne _ ?_, hne _ ?_, hne _ ?_,
      hne _ ?_, hne _ ?_⟩ <;> decide

theorem isPlainTok_fnName (name : FnName) : isPlainTok name.text = true := by
  refine (isPlainTok_iff _).mpr ⟨?_, fun c hc =>
    isTokChar_of_isWordChar (isWordChar_of_isFnNameChar (name.chars c hc))⟩
  intro hnil
  have hstart := name.start
  rw [hnil] at hstart
  contradiction

/-- A function name is scanned whole. -/
theorem scanFnName_print (name : FnName) (b r : Text) (hr : AtBlank r) :
    scanFnName ⟨b, name.text ++ r⟩ = some (name.text, ⟨name.text.reverse ++ b, r⟩) := by
  have hskip := skipWsPos_starts (starts_of_isPlainTok (isPlainTok_fnName name)) b r
  have hstart := name.start
  have hchars := name.chars
  generalize name.text = text at hskip hstart hchars ⊢
  cases text with
  | nil => contradiction
  | cons c s =>
      have hc : isFnNameStart c = true := by simpa using hstart
      have htake : (s ++ r).takeWhile isFnNameChar = s := by
        rw [List.takeWhile_append_of_pos fun d hd => hchars d (by simp [hd])]
        rcases hr with rfl | ⟨r, rfl⟩
        · simp
        · simp [isFnNameChar, show isalnum ' ' = false by decide]
      simp only [scanFnName]
      rw [hskip]
      simp only [List.cons_append, hc, if_true, htake]
      rw [← List.cons_append, advance_append]

/-- No function definition begins with a token of a pipeline. -/
theorem looksLikeFnDef_print (t : STok) (b r : Text) (hr : AtBlank r) (hp : NoParen r) :
    looksLikeFnDef ⟨b, t.print ++ r⟩ = false := by
  obtain ⟨c, s, hc, hsp⟩ := print_head_not_blank t
  have hskip : skipWsPos ⟨b, t.print ++ r⟩ = ⟨b, t.print ++ r⟩ :=
    skipWsPos_starts ⟨c, s, hc, hsp⟩ b r
  cases hstart : isFnNameStart c with
  | false =>
      simp only [looksLikeFnDef, scanFnName]
      rw [hskip, hc]
      simp [hstart]
  | true =>
      -- the name ends inside the token, or with it
      have hparen : NoParen ((s ++ r).dropWhile isFnNameChar) := by
        have htail : ∀ u : Text, (∀ d ∈ u, isWordChar d = true) →
            NoParen ((u ++ r).dropWhile isFnNameChar) := by
          intro u hu
          induction u with
          | nil =>
              rcases hr with rfl | ⟨r, rfl⟩
              · exact noParen_nil
              · simpa [isFnNameChar, show isalnum ' ' = false by decide] using hp
          | cons d u ih =>
              rw [List.cons_append, List.dropWhile_cons]
              split
              · exact ih fun e he => hu e (by simp [he])
              · have hd := (isWordChar_iff d).mp (hu d (by simp))
                exact fun b => matchMarkAt_of_head hd.1 hd.2.2.2.2.2.2.2.2.1
        cases t with
        | op k =>
            cases k <;> (obtain rfl := (List.cons.inj hc).1; contradiction)
        | word w =>
            cases w with
            | single s' _ _ => obtain rfl := (List.cons.inj hc).1; contradiction
            | double s' _ _ => obtain rfl := (List.cons.inj hc).1; contradiction
            | bare s' hne hs' hres =>
                have hs : s' = c :: s := hc
                exact htail s fun d hd => hs' d (by simp [hs, hd])
      have hsplit := List.takeWhile_append_dropWhile (p := isFnNameChar) (l := s ++ r)
      simp only [looksLikeFnDef, scanFnName]
      rw [hskip, hc]
      simp only [List.cons_append, hstart, if_true, Option.bind_some]
      have hadv : Cursor.advance (c :: (s ++ r).takeWhile isFnNameChar).length ⟨b, c :: (s ++ r)⟩ =
          ⟨(c :: (s ++ r).takeWhile isFnNameChar).reverse ++ b,
            (s ++ r).dropWhile isFnNameChar⟩ := by
        have := advance_append (c :: (s ++ r).takeWhile isFnNameChar)
          ((s ++ r).dropWhile isFnNameChar) b
        rwa [List.cons_append, hsplit] at this
      rw [hadv]
      simp [matchEmptyParens, hparen _]

/-! ## Items -/

/-- The parser reads the item `ast` from the tokens `ts`, with its separator or
at the end of the line. -/
structure ItemOk (rec : ListParser) (ts : List Text) (ast : ItemKind) : Prop where
  sep : ∀ next b sep r, AtBlank r → ∃ b',
    parseItem rec next ⟨b, unspaced ts ++ ' ' :: (Sep.print sep ++ r)⟩ =
      some (.item ⟨ast, next, sep.isBg⟩ sep.next true ⟨b', r⟩)
  atEnd : ∀ next b, ∃ b',
    parseItem rec next ⟨b, unspaced ts⟩ = some (.item ⟨ast, next, false⟩ .always false ⟨b', []⟩)

/-- The compound parsers read `ast` from the tokens `ts`. -/
def CompoundOk (rec : ListParser) (ts : List Text) (ast : ItemKind) : Prop :=
  ∀ b r, AtBlank r → ∃ b', compoundAt rec ⟨b, unspaced ts ++ r⟩ = some (some (ast, ⟨b', r⟩))

private theorem starts_sep (sep : Sep) : Starts sep.print := by
  cases sep <;> exact ⟨_, _, rfl, by decide⟩

theorem takeConnAfter_sep (kind : ItemKind) (next : RunCond) (b : Text) (sep : Sep) (r : Text)
    (hr : AtBlank r) :
    takeConnAfter kind next ⟨b, ' ' :: (sep.print ++ r)⟩ =
      .item ⟨kind, next, sep.isBg⟩ sep.next true ⟨sep.print.reverse ++ ' ' :: b, r⟩ := by
  have hfind : findListConnector ⟨' ' :: b, sep.print ++ r⟩ = some (0, sepConnector sep) :=
    findFrom_sep sep _ r hr
  have hadv := advance_append sep.print r (' ' :: b)
  simp only [takeConnAfter, skipWsPos_blank, skipWsPos_starts (starts_sep sep), hfind]
  simp only [sepConnector, hadv]

/-- A compound with what follows it. -/
theorem CompoundOk.itemOk {rec : ListParser} {ts : List Text} {ast : ItemKind}
    (h : CompoundOk rec ts ast) : ItemOk rec ts ast where
  sep next b sep r hr := by
    obtain ⟨b', hc⟩ := h b (' ' :: (sep.print ++ r)) (atBlank_cons _)
    refine ⟨sep.print.reverse ++ ' ' :: b', ?_⟩
    simp only [parseItem, hc, Option.map_some, takeConnAfter_sep _ _ _ _ _ hr]
  atEnd next b := by
    obtain ⟨b', hc⟩ := h b [] atBlank_nil
    rw [List.append_nil] at hc
    exact ⟨b', by simp only [parseItem, hc]; rfl⟩

/-! ## Pipelines -/

private theorem print_last_not_blank (t : STok) : ∃ s c, t.print = s ++ [c] ∧ isspace c = false := by
  cases t with
  | op k =>
      cases k with
      | pipe => exact ⟨[], '|', rfl, by decide⟩
      | lt => exact ⟨[], '<', rfl, by decide⟩
      | dless => exact ⟨"<".toList, '<', rfl, by decide⟩
      | dlessdash => exact ⟨"<<".toList, '-', rfl, by decide⟩
      | gt => exact ⟨[], '>', rfl, by decide⟩
      | gtgt => exact ⟨">".toList, '>', rfl, by decide⟩
      | errgt => exact ⟨"2".toList, '>', rfl, by decide⟩
      | errgtgt => exact ⟨"2>".toList, '>', rfl, by decide⟩
      | errtoout => exact ⟨"2>&".toList, '1', rfl, by decide⟩
      | ampgt => exact ⟨"&".toList, '>', rfl, by decide⟩
  | word w =>
      cases w with
      | single s hne h => exact ⟨'\'' :: s, '\'', rfl, by decide⟩
      | double s hne h => exact ⟨'"' :: s, '"', rfl, by decide⟩
      | bare s hne h hres =>
          refine ⟨s.dropLast, s.getLast hne, (List.dropLast_concat_getLast hne).symm, ?_⟩
          exact ((isWordChar_iff _).mp (h _ (List.getLast_mem hne))).1

/-- The text of a pipeline neither begins nor ends with a blank. -/
private theorem trim_unspaced (t : STok) (ts : List STok) :
    trim isspace (unspaced ((t :: ts).map STok.print)) =
      unspaced ((t :: ts).map STok.print) := by
  refine trim_eq_self ?_ ?_
  · obtain ⟨c, s, hc, hsp⟩ := print_head_not_blank t
    simp [unspaced, hc, hsp]
  · rcases List.eq_nil_or_concat ts with rfl | ⟨init, u, rfl⟩
    · obtain ⟨s, c, hc, hsp⟩ := print_last_not_blank t
      simp [unspaced, hc, hsp]
    · obtain ⟨s, c, hc, hsp⟩ := print_last_not_blank u
      have hlast : unspaced ((t :: init.concat u).map STok.print) =
          (t.print ++ (spaced (init.map STok.print) ++ ' ' :: s)) ++ [c] := by
        simp [unspaced, hc]
      rw [hlast, List.getLast?_append]
      simpa using hsp

private theorem passes_unspaced (t : STok) (ts : List STok) (r : Text) (hr : AtBlank r) :
    Passes (unspaced ((t :: ts).map STok.print)) r :=
  (passes_print t _ (atBlank_spaced _ r hr)).append (passes_spaced ts r hr)

private theorem unspaced_ne_nil (t : STok) (ts : List STok) :
    unspaced ((t :: ts).map STok.print) ≠ [] := by
  obtain ⟨c, s, hc, -⟩ := print_head_not_blank t
  simp [unspaced, hc]

/-- Nothing of a pipeline looks like a compound command. -/
private theorem compoundAt_pipeline (rec : ListParser) (t : STok) (ts : List STok) (b r : Text)
    (hr : AtBlank r) (hp : NoParen r) :
    compoundAt rec ⟨b, unspaced ((t :: ts).map STok.print) ++ r⟩ = none := by
  have hblank : AtBlank (spaced (ts.map STok.print) ++ r) := atBlank_spaced _ r hr
  have hparen : NoParen (spaced (ts.map STok.print) ++ r) := by
    cases ts with
    | nil => exact hp
    | cons u us => simpa using noParen_print u (spaced (us.map STok.print) ++ r)
  have hmiss : ∀ kw ∈ reserved, matchKwAt kw
      ⟨b, t.print ++ (spaced (ts.map STok.print) ++ r)⟩ = none := by
    intro kw hkw
    cases t with
    | word w => exact misses_word w kw hkw b _ hblank
    | op k => exact misses_op k kw hkw b _ hblank
  have hfn := looksLikeFnDef_print t b _ hblank hparen
  rw [List.map_cons, unspaced, List.append_assoc]
  simp only [compoundAt, hmiss _ (by decide : "if".toList ∈ reserved),
    hmiss _ (by decide : "while".toList ∈ reserved), hmiss _ (by decide : "for".toList ∈ reserved),
    hmiss _ (by decide : "case".toList ∈ reserved), hmiss _ (by decide : "[[".toList ∈ reserved),
    hmiss _ (by decide : "function".toList ∈ reserved), hfn, Option.isSome_none,
    Bool.false_eq_true, if_false]

theorem pipeline_itemOk (rec : ListParser) (st : SStage) (sts : List SStage) :
    ItemOk rec ((pipelineToks st sts).map STok.print)
      (.pipeline ⟨(st :: sts).map SStage.toCmd⟩) := by
  obtain ⟨t, ts, htoks⟩ := exists_pipelineToks st sts
  have hparse : parsePipeline (unspaced ((t :: ts).map STok.print)) =
      some ⟨(st :: sts).map SStage.toCmd⟩ := parsePipeline_print st sts t ts htoks
  have hne := unspaced_ne_nil t ts
  have htrim := trim_unspaced t ts
  rw [htoks]
  constructor
  · intro next b sep r hr
    have hcomp := compoundAt_pipeline rec t ts b _ (atBlank_cons (sep.print ++ r))
      (noParen_sep sep r)
    have hpass := passes_unspaced t ts _ (atBlank_cons (sep.print ++ r))
    generalize unspaced ((t :: ts).map STok.print) = text at *
    have hfind := findListConnector_sep b text sep r hr hpass
    have htake : (text ++ ' ' :: (sep.print ++ r)).take (text.length + 1) = text ++ [' '] := by
      rw [List.take_length_add_append]
      rfl
    have hseg : trim isspace ((text ++ ' ' :: (sep.print ++ r)).take (text.length + 1)) = text := by
      rw [htake, trim_append_tail (by simp [isspace]), htrim]
    refine ⟨sep.print.reverse ++ ' ' :: (text.reverse ++ b), ?_⟩
    have hadv : Cursor.advance (text.length + 1 + sep.print.length)
        ⟨b, text ++ ' ' :: (sep.print ++ r)⟩ =
          ⟨sep.print.reverse ++ ' ' :: (text.reverse ++ b), r⟩ := by
      rw [Nat.add_assoc, advance_append_add, Nat.add_comm]
      simp [Cursor.advance]
    simp only [parseItem, hcomp, parsePipelineItem, hfind, Option.map_some, Option.getD_some,
      hseg, hne, if_false, hparse, sepConnector, hadv]
  · intro next b
    have hcomp := compoundAt_pipeline rec t ts b [] atBlank_nil noParen_nil
    have hpass := passes_unspaced t ts [] atBlank_nil
    generalize unspaced ((t :: ts).map STok.print) = text at *
    have hfind := findListConnector_end b text hpass
    have hadv := advance_append text [] b
    rw [List.append_nil] at hcomp hadv
    refine ⟨text.reverse ++ b, ?_⟩
    simp only [parseItem, hcomp, parsePipelineItem, hfind, Option.map_none, Option.getD_none,
      List.take_length, htrim, hne, if_false, hparse, hadv]

/-! ## Inner lists -/

/-- The list parser reads `ast` from the tokens `ts`, up to any stop keyword. -/
def ListOk (rec : ListParser) (ts : List Text) (ast : PList) : Prop :=
  ∀ mask, ∀ stop ∈ mask, ∀ b r, AtBlank r → ∃ b',
    rec mask true .always ⟨b, spaced ts ++ ' ' :: (Kw.print stop ++ r)⟩ =
      some (ast, ⟨b', Kw.print stop ++ r⟩)

/-- A keyword and a list. -/
theorem kwThenList_ok {rec : ListParser} {ts : List Text} {ast : PList}
    (h : ListOk rec ts ast) (kw : Text) (hkw : Starts kw) (mask : List Kw) (stop : Kw)
    (hstop : stop ∈ mask) (b r : Text) (hr : AtBlank r) :
    ∃ b', kwThenList rec kw mask ⟨b, kw ++ (spaced ts ++ ' ' :: (Kw.print stop ++ r))⟩ =
      some (ast, ⟨b', Kw.print stop ++ r⟩) := by
  obtain ⟨b', hlist⟩ := h mask stop hstop (kw.reverse ++ b) r hr
  refine ⟨b', ?_⟩
  rw [kwThenList, matchKwAt_self kw hkw b _ (atBlank_spaced ts _ (atBlank_cons _))]
  exact hlist

/-- The same where the keyword is the one an earlier list stopped at. -/
theorem kwThenList_at {rec : ListParser} {ts : List Text} {ast : PList}
    (h : ListOk rec ts ast) (start : Kw) (kw : Text) (hkw : Kw.print start = kw)
    (mask : List Kw) (stop : Kw) (hstop : stop ∈ mask) (b r : Text) (hr : AtBlank r) :
    ∃ b', kwThenList rec kw mask
        ⟨b, Kw.print start ++ (spaced ts ++ ' ' :: (Kw.print stop ++ r))⟩ =
      some (ast, ⟨b', Kw.print stop ++ r⟩) :=
  hkw ▸ kwThenList_ok h _ (starts_kw start) mask stop hstop b r hr

/-- The keyword a list stopped at. -/
theorem matchKwAt_at (start : Kw) (kw : Text) (hkw : Kw.print start = kw) (b r : Text)
    (hr : AtBlank r) :
    matchKwAt kw ⟨b, Kw.print start ++ r⟩ = some ⟨(Kw.print start).reverse ++ b, r⟩ :=
  hkw ▸ matchKwAt_self _ (starts_kw start) b r hr

/-! ## Compounds by their keyword -/

private theorem miss {t kw : Text} (ht : isPlainTok t = true) (hkw : isPlainTok kw = true)
    (hne : t ≠ kw) (b r : Text) (hr : AtBlank r) :
    (matchKwAt kw ⟨b, t ++ r⟩).isSome = false := by
  rw [misses_of_ne ht hkw hne b r hr]
  rfl

private theorem hit (kw : Text) (h : Starts kw) (b r : Text) (hr : AtBlank r) :
    (matchKwAt kw ⟨b, kw ++ r⟩).isSome = true := by
  rw [matchKwAt_self kw h b r hr]
  rfl

theorem compoundAt_if (rec : ListParser) (b r : Text) (hr : AtBlank r) :
    compoundAt rec ⟨b, "if".toList ++ r⟩ = some (parseIf rec ⟨b, "if".toList ++ r⟩) := by
  simp only [compoundAt, hit "if".toList ⟨_, _, rfl, by decide⟩ b r hr, if_true]

theorem compoundAt_while (rec : ListParser) (b r : Text) (hr : AtBlank r) :
    compoundAt rec ⟨b, "while".toList ++ r⟩ =
      some (parseWhile rec ⟨b, "while".toList ++ r⟩) := by
  simp only [compoundAt, hit "while".toList ⟨_, _, rfl, by decide⟩ b r hr, if_true,
    miss (by decide) (by decide) (by decide : "while".toList ≠ "if".toList) b r hr,
    Bool.false_eq_true, if_false]

theorem compoundAt_for (rec : ListParser) (b r : Text) (hr : AtBlank r) :
    compoundAt rec ⟨b, "for".toList ++ r⟩ = some (parseFor rec ⟨b, "for".toList ++ r⟩) := by
  simp only [compoundAt, hit "for".toList ⟨_, _, rfl, by decide⟩ b r hr, if_true,
    miss (by decide) (by decide) (by decide : "for".toList ≠ "if".toList) b r hr,
    miss (by decide) (by decide) (by decide : "for".toList ≠ "while".toList) b r hr,
    Bool.false_eq_true, if_false]

theorem compoundAt_case (rec : ListParser) (b r : Text) (hr : AtBlank r) :
    compoundAt rec ⟨b, "case".toList ++ r⟩ = some (parseCase rec ⟨b, "case".toList ++ r⟩) := by
  simp only [compoundAt, hit "case".toList ⟨_, _, rfl, by decide⟩ b r hr, if_true,
    miss (by decide) (by decide) (by decide : "case".toList ≠ "if".toList) b r hr,
    miss (by decide) (by decide) (by decide : "case".toList ≠ "while".toList) b r hr,
    miss (by decide) (by decide) (by decide : "case".toList ≠ "for".toList) b r hr,
    Bool.false_eq_true, if_false]

theorem compoundAt_dbracket (rec : ListParser) (b r : Text) (hr : AtBlank r) :
    compoundAt rec ⟨b, "[[".toList ++ r⟩ = some (parseDbracket ⟨b, "[[".toList ++ r⟩) := by
  simp only [compoundAt, hit "[[".toList ⟨_, _, rfl, by decide⟩ b r hr, if_true,
    miss (by decide) (by decide) (by decide : "[[".toList ≠ "if".toList) b r hr,
    miss (by decide) (by decide) (by decide : "[[".toList ≠ "while".toList) b r hr,
    miss (by decide) (by decide) (by decide : "[[".toList ≠ "for".toList) b r hr,
    miss (by decide) (by decide) (by decide : "[[".toList ≠ "case".toList) b r hr,
    Bool.false_eq_true, if_false]

theorem compoundAt_function (rec : ListParser) (b r : Text) (hr : AtBlank r) :
    compoundAt rec ⟨b, "function".toList ++ r⟩ =
      some (parseFn rec true ⟨b, "function".toList ++ r⟩) := by
  simp only [compoundAt, hit "function".toList ⟨_, _, rfl, by decide⟩ b r hr, if_true,
    miss (by decide) (by decide) (by decide : "function".toList ≠ "if".toList) b r hr,
    miss (by decide) (by decide) (by decide : "function".toList ≠ "while".toList) b r hr,
    miss (by decide) (by decide) (by decide : "function".toList ≠ "for".toList) b r hr,
    miss (by decide) (by decide) (by decide : "function".toList ≠ "case".toList) b r hr,
    miss (by decide) (by decide) (by decide : "function".toList ≠ "[[".toList) b r hr,
    Bool.false_eq_true, if_false]

/-! ## while -/

theorem while_ok {rec : ListParser} {cts bts : List Text} {cond body : PList}
    (hcond : ListOk rec cts cond) (hne : cond ≠ []) (hbody : ListOk rec bts body) :
    CompoundOk rec ("while".toList :: cts ++ "do".toList :: bts ++ ["done".toList])
      (.wh cond body) := by
  intro b r hr
  have htext : unspaced ("while".toList :: cts ++ "do".toList :: bts ++ ["done".toList]) ++ r =
      "while".toList ++ (spaced cts ++ ' ' :: (Kw.print .do_ ++
        (spaced bts ++ ' ' :: (Kw.print .done ++ r)))) := by
    simp [unspaced, Kw.print]
  obtain ⟨b₁, h₁⟩ := kwThenList_ok hcond "while".toList ⟨_, _, rfl, by decide⟩ [.do_] .do_
    (by simp) b (spaced bts ++ ' ' :: (Kw.print .done ++ r)) (atBlank_spaced _ _ (atBlank_cons _))
  obtain ⟨b₂, h₂⟩ :=
    kwThenList_at hbody .do_ "do".toList rfl [.done] .done (by simp) b₁ r hr
  have h₃ := matchKwAt_at .done "done".toList rfl b₂ r hr
  have hcond : cond.isEmpty = false := List.isEmpty_eq_false_iff.mpr hne
  refine ⟨(Kw.print .done).reverse ++ b₂, ?_⟩
  rw [htext, compoundAt_while rec b _ (atBlank_spaced _ _ (atBlank_cons _))]
  simp only [parseWhile, h₁, h₂, h₃, hcond, Option.bind_eq_bind, Option.bind_some,
    Bool.false_eq_true, if_false]

/-! ## if -/

/-- An arm from its keyword on, up to the keyword of the next. -/
theorem parseIfArm_ok {rec : ListParser} {cts bts : List Text} {cond body : PList}
    (hcond : ListOk rec cts cond) (hne : cond ≠ []) (hbody : ListOk rec bts body)
    (kw : Text) (hkw : Starts kw) (stop : Kw) (hstop : stop ∈ [Kw.elif, .else_, .fi])
    (b r : Text) (hr : AtBlank r) :
    ∃ b', parseIfArm rec kw ⟨b, kw ++ (spaced cts ++ ' ' :: ("then".toList ++
        (spaced bts ++ ' ' :: (Kw.print stop ++ r))))⟩ =
      some (⟨cond, body, false⟩, ⟨b', Kw.print stop ++ r⟩) := by
  obtain ⟨b₁, h₁⟩ := kwThenList_ok hcond kw hkw [.then_] .then_ (by simp) b
    (spaced bts ++ ' ' :: (Kw.print stop ++ r)) (atBlank_spaced _ _ (atBlank_cons _))
  obtain ⟨b₂, h₂⟩ :=
    kwThenList_at hbody .then_ "then".toList rfl [.elif, .else_, .fi] stop hstop b₁ r hr
  have hcond : cond.isEmpty = false := List.isEmpty_eq_false_iff.mpr hne
  refine ⟨b₂, ?_⟩
  rw [show "then".toList = Kw.print .then_ from rfl]
  simp only [parseIfArm, h₁, h₂, hcond, Option.bind_eq_bind, Option.bind_some,
    Bool.false_eq_true, if_false]

/-- The parser reads the arms `ast` from the tokens of the rest of an `if`. -/
def ElseOk (rec : ListParser) (n : Nat) (ts : List Text) (ast : List IfArm) : Prop :=
  ∀ b r, AtBlank r → ∃ b', parseElifs rec n ⟨b, unspaced ts ++ r⟩ = some (ast, ⟨b', r⟩)

theorem fi_ok (rec : ListParser) (n : Nat) : ElseOk rec (n + 1) ["fi".toList] [] := by
  intro b r hr
  have h := matchKwAt_self "fi".toList ⟨_, _, rfl, by decide⟩ b r hr
  refine ⟨"fi".toList.reverse ++ b, ?_⟩
  rw [show unspaced ["fi".toList] ++ r = "fi".toList ++ r by simp [unspaced]]
  simp only [parseElifs, miss (by decide) (by decide) (by decide : "fi".toList ≠ "elif".toList) b r hr,
    miss (by decide) (by decide) (by decide : "fi".toList ≠ "else".toList) b r hr, h,
    Option.bind_eq_bind, Option.bind_some, Bool.false_eq_true, if_false]

theorem else_ok {rec : ListParser} (n : Nat) {bts : List Text} {body : PList}
    (hbody : ListOk rec bts body) :
    ElseOk rec (n + 1) ("else".toList :: bts ++ ["fi".toList]) [⟨[], body, true⟩] := by
  intro b r hr
  have htext : unspaced ("else".toList :: bts ++ ["fi".toList]) ++ r =
      "else".toList ++ (spaced bts ++ ' ' :: (Kw.print .fi ++ r)) := by
    simp [unspaced, Kw.print]
  have hblank : AtBlank (spaced bts ++ ' ' :: (Kw.print .fi ++ r)) :=
    atBlank_spaced _ _ (atBlank_cons _)
  obtain ⟨b₁, h₁⟩ := kwThenList_ok hbody "else".toList ⟨_, _, rfl, by decide⟩ [.fi] .fi
    (by simp) b r hr
  have h₂ := matchKwAt_at .fi "fi".toList rfl b₁ r hr
  refine ⟨(Kw.print .fi).reverse ++ b₁, ?_⟩
  rw [htext]
  simp only [parseElifs, hit "else".toList ⟨_, _, rfl, by decide⟩ b _ hblank,
    miss (by decide) (by decide) (by decide : "else".toList ≠ "elif".toList) b _ hblank, h₁, h₂,
    Option.bind_eq_bind, Option.bind_some, Bool.false_eq_true, if_false, if_true]

/-- The keyword that opens the rest of an `if`. -/
def ElseHead (ts : List Text) : Prop :=
  ∃ stop ∈ [Kw.elif, .else_, .fi], ∃ us, ts = Kw.print stop :: us

theorem elif_ok {rec : ListParser} (n : Nat) {cts bts ets : List Text} {cond body : PList}
    {arms : List IfArm} (hcond : ListOk rec cts cond) (hne : cond ≠ [])
    (hbody : ListOk rec bts body) (hhead : ElseHead ets) (hels : ElseOk rec n ets arms) :
    ElseOk rec (n + 1) ("elif".toList :: cts ++ "then".toList :: bts ++ ets)
      (⟨cond, body, false⟩ :: arms) := by
  intro b r hr
  obtain ⟨stop, hstop, us, rfl⟩ := hhead
  have htext : unspaced ("elif".toList :: cts ++ "then".toList :: bts ++ Kw.print stop :: us) ++ r =
      "elif".toList ++ (spaced cts ++ ' ' :: ("then".toList ++ (spaced bts ++ ' ' ::
        (Kw.print stop ++ (spaced us ++ r))))) := by
    simp [unspaced]
  have hblank : AtBlank (spaced cts ++ ' ' :: ("then".toList ++ (spaced bts ++ ' ' ::
      (Kw.print stop ++ (spaced us ++ r))))) := atBlank_spaced _ _ (atBlank_cons _)
  obtain ⟨b₁, h₁⟩ := parseIfArm_ok hcond hne hbody "elif".toList ⟨_, _, rfl, by decide⟩
    stop hstop b (spaced us ++ r) (atBlank_spaced us r hr)
  obtain ⟨b₂, h₂⟩ := hels b₁ r hr
  rw [unspaced, List.append_assoc] at h₂
  refine ⟨b₂, ?_⟩
  rw [htext]
  simp only [parseElifs, hit "elif".toList ⟨_, _, rfl, by decide⟩ b _ hblank, h₁, h₂,
    Option.bind_eq_bind, Option.bind_some, if_true]

theorem if_ok {rec : ListParser} {cts bts ets : List Text} {cond body : PList}
    {arms : List IfArm} (hcond : ListOk rec cts cond) (hne : cond ≠ [])
    (hbody : ListOk rec bts body) (hhead : ElseHead ets)
    (hels : ∀ n, ets.length < n → ElseOk rec n ets arms) :
    CompoundOk rec ("if".toList :: cts ++ "then".toList :: bts ++ ets)
      (.ifc (⟨cond, body, false⟩ :: arms)) := by
  intro b r hr
  obtain ⟨stop, hstop, us, rfl⟩ := hhead
  have htext : unspaced ("if".toList :: cts ++ "then".toList :: bts ++ Kw.print stop :: us) ++ r =
      "if".toList ++ (spaced cts ++ ' ' :: ("then".toList ++ (spaced bts ++ ' ' ::
        (Kw.print stop ++ (spaced us ++ r))))) := by
    simp [unspaced]
  obtain ⟨b₁, h₁⟩ := parseIfArm_ok hcond hne hbody "if".toList ⟨_, _, rfl, by decide⟩
    stop hstop b (spaced us ++ r) (atBlank_spaced us r hr)
  -- the loop is bounded by the length of the text it reads
  have hlen : (Kw.print stop :: us).length < (Kw.print stop ++ (spaced us ++ r)).length + 1 := by
    have hus := length_le_spaced us
    obtain ⟨c, s, hc, -⟩ := starts_kw stop
    simp only [hc, List.length_cons, List.length_append]
    omega
  obtain ⟨b₂, h₂⟩ := hels _ hlen b₁ r hr
  rw [unspaced, List.append_assoc] at h₂
  refine ⟨b₂, ?_⟩
  rw [htext, compoundAt_if rec b _ (atBlank_spaced _ _ (atBlank_cons _))]
  simp only [parseIf, h₁, h₂, Option.bind_eq_bind, Option.bind_some]

/-! ## Word loops -/

/-- A printed word where one is read that may not be empty. -/
theorem nonEmptyWord_print {stop : Text → Bool} (hstop : StopsAtBlank stop) (w : SWord)
    (b r : Text) (hr : AtBlank r) :
    nonEmptyWord (scanWith stop) ⟨b, w.print ++ r⟩ =
      some (w.toWord, ⟨w.print.reverse ++ b, r⟩) := by
  have hne : w.toWord.text ≠ [] := by cases w <;> assumption
  simp only [nonEmptyWord, scanWith_print hstop w r hr, hne, if_false, advance_append]

/-- A printed word begins with no separator, no parenthesis and no blank. -/
theorem print_head_ne (w : SWord) :
    ∃ c s, w.print = c :: s ∧ isspace c = false ∧ c ≠ ';' ∧ c ≠ '(' ∧ c ≠ '&' ∧ c ≠ '|' := by
  obtain ⟨c, s, hc, hq | hw⟩ := print_head w
  · refine ⟨c, s, hc, isspace_of_isQuote hq, ?_, ?_, ?_, ?_⟩ <;> (rintro rfl; contradiction)
  · have h := (isWordChar_iff c).mp hw
    exact ⟨c, s, hc, h.1, h.2.2.2.1, h.2.2.2.2.2.2.2.2.1, h.2.2.2.2.2.1, h.2.2.2.2.1⟩

/-- The words of a `for`, up to `;`. -/
theorem forWords_print (words : List SWord) (n : Nat) (hn : words.length < n) (b r : Text) :
    ∃ b', forWords n ⟨b, spaced (words.map SWord.print) ++ ' ' :: ';' :: r⟩ =
      some (words.map SWord.text, ⟨b', r⟩) := by
  induction words generalizing n b with
  | nil =>
      obtain ⟨n, rfl⟩ : ∃ m, n = m + 1 := ⟨n - 1, by simp at hn; omega⟩
      exact ⟨';' :: ' ' :: b, rfl⟩
  | cons w words ih =>
      obtain ⟨n, rfl⟩ : ∃ m, n = m + 1 := ⟨n - 1, by omega⟩
      set r' := spaced (words.map SWord.print) ++ ' ' :: ';' :: r with hr'
      have hblank : AtBlank r' := atBlank_spaced _ _ (atBlank_cons _)
      obtain ⟨b', hrest⟩ := ih n (by simpa using hn) (w.print.reverse ++ ' ' :: b)
      have hscan : scanForWord (w.print ++ r') = (w.toWord, w.print.length) :=
        scanWith_print forWordStop_stopsAtBlank w r' hblank
      have hne : w.toWord.text ≠ [] := by cases w <;> assumption
      have hdo : matchKwAt "do".toList ⟨' ' :: b, w.print ++ r'⟩ = none :=
        misses_word w _ (by decide) _ _ hblank
      have hskip := skipWsPos_starts (starts_word w) (' ' :: b) r'
      refine ⟨b', ?_⟩
      have htext : spaced ((w :: words).map SWord.print) ++ ' ' :: ';' :: r =
          ' ' :: (w.print ++ r') := by simp [hr']
      have hadv := advance_append w.print r' (' ' :: b)
      obtain ⟨c, s, hc, -, hsemi, -⟩ := print_head_ne w
      rw [htext, forWords, skipWsPos_blank, hskip]
      rw [hc] at hrest
      rw [hc, List.cons_append] at hdo hscan hadv ⊢
      split
      · contradiction
      case h_2 heq => exact absurd (List.cons.inj heq).1 hsemi
      · simp only [hdo, hscan, hne, hadv, hrest, Option.isSome_none, Bool.false_eq_true, if_false,
          Option.map_some]
        rfl

/-- Alternative patterns, up to `)`. -/
theorem casePatterns_print (pat : SWord) (pats : List SWord) (n : Nat) (hn : pats.length < n)
    (b r : Text) :
    ∃ b', casePatterns n ⟨b, pat.print ++ (spaced (pats.flatMap fun p => ["|".toList, p.print]) ++
        ' ' :: ')' :: r)⟩ = some ((pat :: pats).map SWord.text, ⟨b', r⟩) := by
  induction pats generalizing pat n b with
  | nil =>
      obtain ⟨n, rfl⟩ : ∃ m, n = m + 1 := ⟨n - 1, by omega⟩
      have hskip := skipWsPos_starts (starts_word pat) b (' ' :: ')' :: r)
      have hword : nonEmptyWord scanCasePattern ⟨b, pat.print ++ ' ' :: ')' :: r⟩ = _ :=
        nonEmptyWord_print casePatternStop_stopsAtBlank pat b _ (atBlank_cons _)
      refine ⟨')' :: ' ' :: (pat.print.reverse ++ b), ?_⟩
      simp only [List.flatMap_nil, spaced_nil, List.nil_append, casePatterns, hskip, hword]
      rfl
  | cons p pats ih =>
      obtain ⟨n, rfl⟩ : ∃ m, n = m + 1 := ⟨n - 1, by omega⟩
      set r' := p.print ++ (spaced (pats.flatMap fun p => ["|".toList, p.print]) ++
        ' ' :: ')' :: r) with hr'
      have htext : spaced ((p :: pats).flatMap fun p => ["|".toList, p.print]) ++
          ' ' :: ')' :: r = ' ' :: '|' :: ' ' :: r' := by simp [hr']
      have hskip := skipWsPos_starts (starts_word pat) b (' ' :: '|' :: ' ' :: r')
      have hword : nonEmptyWord scanCasePattern ⟨b, pat.print ++ ' ' :: '|' :: ' ' :: r'⟩ = _ :=
        nonEmptyWord_print casePatternStop_stopsAtBlank pat b _ (atBlank_cons _)
      obtain ⟨b', hrest⟩ := ih p n (by simpa using hn) (' ' :: '|' :: ' ' :: (pat.print.reverse ++ b))
      rw [← hr'] at hrest
      have hblank : ∀ m b s, casePatterns m ⟨b, ' ' :: s⟩ = casePatterns m ⟨' ' :: b, s⟩ := by
        intro m b s
        cases m <;> rfl
      have hbar : skipWsPos ⟨pat.print.reverse ++ b, ' ' :: '|' :: ' ' :: r'⟩ =
          ⟨' ' :: (pat.print.reverse ++ b), '|' :: ' ' :: r'⟩ := rfl
      refine ⟨b', ?_⟩
      rw [htext, casePatterns, hskip, hword]
      simp only [hbar, Cursor.advance, hblank, hrest, Option.map_some]
      rfl

/-- One token of `[[`. -/
theorem dbToken_print (t : DbTok) (b r : Text) (hr : AtBlank r) :
    ∃ b', dbToken ⟨b, t.print ++ r⟩ = some (t.toWord, ⟨b', r⟩) := by
  cases t with
  | and => exact ⟨'&' :: '&' :: b, rfl⟩
  | or => exact ⟨'|' :: '|' :: b, rfl⟩
  | not => rcases hr with rfl | ⟨r, rfl⟩ <;> exact ⟨'!' :: b, rfl⟩
  | word w =>
      have hword : nonEmptyWord scanForWord ⟨b, w.print ++ r⟩ = _ :=
        nonEmptyWord_print forWordStop_stopsAtBlank w b r hr
      refine ⟨w.print.reverse ++ b, ?_⟩
      obtain ⟨c, s, hc, -, -, -, hamp, hbar⟩ := print_head_ne w
      rw [DbTok.print, DbTok.toWord, ← hword, hc, List.cons_append]
      unfold dbToken
      split
      case h_1 heq => exact absurd (List.cons.inj heq).1 hamp
      case h_2 heq => exact absurd (List.cons.inj heq).1 hbar
      case h_3 u heq =>
        -- a word that begins with `!` goes on with a word character
        obtain ⟨rfl, rfl⟩ := List.cons.inj heq
        refine if_neg ?_
        cases w with
        | single t _ _ => exact absurd (List.cons.inj hc).1 (by decide)
        | double t _ _ => exact absurd (List.cons.inj hc).1 (by decide)
        | bare t hne hchars hres =>
            have ht : t = '!' :: s := hc
            cases s with
            | nil => exact absurd (ht ▸ (by decide : ['!'] ∈ reserved)) hres
            | cons d s =>
                obtain ⟨hsp, -, -, -, hp, ha, -⟩ :=
                  (isWordChar_iff d).mp (hchars d (by simp [ht]))
                simp [hsp, hp, ha]
      · rfl

theorem misses_dbTok (t : DbTok) : Misses t.print "]]".toList := by
  cases t with
  | word w => exact misses_word w _ (by decide)
  | and => exact misses_of_head (by decide) (by decide)
  | or => exact misses_of_head (by decide) (by decide)
  | not => exact misses_of_head (by decide) (by decide)

theorem starts_dbTok (t : DbTok) : Starts t.print := by
  cases t with
  | word w => exact starts_word w
  | _ => exact ⟨_, _, rfl, by decide⟩

/-- The tokens of `[[`, up to `]]`. -/
theorem dbTokens_print (toks : List DbTok) (n : Nat) (hn : toks.length < n) (b r : Text)
    (hr : AtBlank r) :
    ∃ b', dbTokens n ⟨b, spaced (toks.map DbTok.print) ++ ' ' :: ("]]".toList ++ r)⟩ =
      some (toks.map DbTok.toWord, ⟨b', r⟩) := by
  induction toks generalizing n b with
  | nil =>
      obtain ⟨n, rfl⟩ : ∃ m, n = m + 1 := ⟨n - 1, by simp at hn; omega⟩
      have hskip := skipWsPos_starts (t := "]]".toList) ⟨_, _, rfl, by decide⟩ (' ' :: b) r
      have hkw := matchKwAt_self "]]".toList ⟨_, _, rfl, by decide⟩ (' ' :: b) r hr
      refine ⟨"]]".toList.reverse ++ ' ' :: b, ?_⟩
      simp only [List.map_nil, spaced_nil, List.nil_append, dbTokens, skipWsPos_blank, hskip, hkw]
  | cons t toks ih =>
      obtain ⟨n, rfl⟩ : ∃ m, n = m + 1 := ⟨n - 1, by omega⟩
      set r' := spaced (toks.map DbTok.print) ++ ' ' :: ("]]".toList ++ r) with hr'
      have hblank : AtBlank r' := atBlank_spaced _ _ (atBlank_cons _)
      have hskip := skipWsPos_starts (starts_dbTok t) (' ' :: b) r'
      have hkw := misses_dbTok t (' ' :: b) r' hblank
      obtain ⟨b₁, htok⟩ := dbToken_print t (' ' :: b) r' hblank
      obtain ⟨b₂, hrest⟩ := ih n (by simpa using hn) b₁
      have htext : spaced ((t :: toks).map DbTok.print) ++ ' ' :: ("]]".toList ++ r) =
          ' ' :: (t.print ++ r') := by simp [hr']
      refine ⟨b₂, ?_⟩
      rw [htext, dbTokens, skipWsPos_blank, hskip]
      simp only [hkw, htok, hrest, Option.map_some]
      rfl

/-! ## for, case, functions and tests -/

theorem for_ok {rec : ListParser} (name : SWord) (words : List SWord) {bts : List Text}
    {body : PList} (hbody : ListOk rec bts body) :
    CompoundOk rec
      ("for".toList :: name.print :: "in".toList :: words.map SWord.print ++
        ";".toList :: "do".toList :: bts ++ ["done".toList])
      (.fr name.text (words.map SWord.text) body) := by
  intro b r hr
  set tail := Kw.print .do_ ++ (spaced bts ++ ' ' :: (Kw.print .done ++ r)) with htail
  set ws := spaced (words.map SWord.print) ++ ' ' :: ';' :: ' ' :: tail with hws
  have htext : unspaced ("for".toList :: name.print :: "in".toList :: words.map SWord.print ++
      ";".toList :: "do".toList :: bts ++ ["done".toList]) ++ r =
      "for".toList ++ ' ' :: (name.print ++ ' ' :: ("in".toList ++ ws)) := by
    simp [unspaced, Kw.print, hws, htail]
  have hwsBlank : AtBlank ws := atBlank_spaced _ _ (atBlank_cons _)
  have hfor := matchKwAt_self "for".toList ⟨_, _, rfl, by decide⟩ b
    (' ' :: (name.print ++ ' ' :: ("in".toList ++ ws))) (atBlank_cons _)
  set b₁ := "for".toList.reverse ++ b
  have hskip := skipWsPos_starts (starts_word name) (' ' :: b₁) (' ' :: ("in".toList ++ ws))
  have hname : nonEmptyWord scanForWord ⟨' ' :: b₁, name.print ++ ' ' :: ("in".toList ++ ws)⟩ = _ :=
    nonEmptyWord_print forWordStop_stopsAtBlank name _ _ (atBlank_cons _)
  have hparen : (name.print ++ ' ' :: ("in".toList ++ ws)).head? ≠ some '(' := by
    obtain ⟨c, s, hc, -, -, hne, -⟩ := print_head_ne name
    simpa [hc] using hne
  have hin := matchKwAt_self "in".toList ⟨_, _, rfl, by decide⟩
    (' ' :: (name.print.reverse ++ ' ' :: b₁)) ws hwsBlank
  set b₂ := "in".toList.reverse ++ ' ' :: (name.print.reverse ++ ' ' :: b₁)
  have hlen : words.length < ws.length + 1 := by
    have hle := length_le_spaced (words.map SWord.print)
    simp only [hws, List.length_append, List.length_map] at hle ⊢
    omega
  obtain ⟨b₃, hwords⟩ := forWords_print words _ hlen b₂ (' ' :: tail)
  rw [← hws] at hwords
  obtain ⟨b₄, hdo⟩ := kwThenList_at hbody .do_ "do".toList rfl [.done] .done (by simp)
    (' ' :: b₃) r hr
  rw [← htail] at hdo
  have hblank : kwThenList rec "do".toList [.done] ⟨b₃, ' ' :: tail⟩ =
      kwThenList rec "do".toList [.done] ⟨' ' :: b₃, tail⟩ := rfl
  have hdone := matchKwAt_at .done "done".toList rfl b₄ r hr
  refine ⟨(Kw.print .done).reverse ++ b₄, ?_⟩
  rw [htext, compoundAt_for rec b _ (atBlank_cons _)]
  simp only [parseFor, hfor, skipWsPos_blank, hskip, hparen, hname, matchKwAt_blank, hin, hwords,
    hblank, hdo, hdone, Option.bind_eq_bind, Option.bind_some, if_false]
  rfl

theorem dbracket_ok (rec : ListParser) (toks : List DbTok) :
    CompoundOk rec ("[[".toList :: toks.map DbTok.print ++ ["]]".toList])
      (.db (toks.map DbTok.toWord)) := by
  intro b r hr
  set ts := spaced (toks.map DbTok.print) ++ ' ' :: ("]]".toList ++ r) with hts
  have htext : unspaced ("[[".toList :: toks.map DbTok.print ++ ["]]".toList]) ++ r =
      "[[".toList ++ ts := by
    simp [unspaced, hts]
  have hblank : AtBlank ts := atBlank_spaced _ _ (atBlank_cons _)
  have hopen := matchKwAt_self "[[".toList ⟨_, _, rfl, by decide⟩ b ts hblank
  have hlen : toks.length < ts.length + 1 := by
    have hle := length_le_spaced (toks.map DbTok.print)
    simp only [hts, List.length_append, List.length_map] at hle ⊢
    omega
  obtain ⟨b₁, htoks⟩ := dbTokens_print toks _ hlen ("[[".toList.reverse ++ b) r hr
  rw [← hts] at htoks
  refine ⟨b₁, ?_⟩
  rw [htext, compoundAt_dbracket rec b _ hblank]
  simp only [parseDbracket, hopen, htoks, Option.bind_eq_bind, Option.bind_some]

private theorem length_patternToks (pats : List SWord) :
    (pats.flatMap fun p => ["|".toList, p.print]).length = 2 * pats.length := by
  induction pats with
  | nil => rfl
  | cons p pats ih =>
      simp only [List.flatMap_cons, List.length_append, ih, List.length_cons, List.length_nil]
      omega

/-- The parser reads the arms `ast` from the tokens `ts`, up to `esac`. -/
def ArmsOk (rec : ListParser) (n : Nat) (ts : List Text) (ast : List CaseArm) : Prop :=
  ∀ b r, AtBlank r → ∃ b',
    caseArms rec n ⟨b, spaced ts ++ ' ' :: ("esac".toList ++ r)⟩ = some (ast, ⟨b', r⟩)

theorem noArms_ok (rec : ListParser) (n : Nat) : ArmsOk rec (n + 1) [] [] := by
  intro b r hr
  have hskip := skipWsPos_starts (t := "esac".toList) ⟨_, _, rfl, by decide⟩ (' ' :: b) r
  have hkw := matchKwAt_self "esac".toList ⟨_, _, rfl, by decide⟩ (' ' :: b) r hr
  refine ⟨"esac".toList.reverse ++ ' ' :: b, ?_⟩
  simp only [spaced_nil, List.nil_append, caseArms, skipWsPos_blank, hskip, hkw]

theorem arm_ok {rec : ListParser} (n : Nat) (pat : SWord) (pats : List SWord) {bts ats : List Text}
    {body : PList} {arms : List CaseArm} (hbody : ListOk rec bts body)
    (harms : ArmsOk rec n ats arms) :
    ArmsOk rec (n + 1) (patternToks pat pats ++ ")".toList :: bts ++ ";;".toList :: ats)
      (⟨(pat :: pats).map SWord.text, body⟩ :: arms) := by
  intro b r hr
  set rest := spaced ats ++ ' ' :: ("esac".toList ++ r) with hrest
  set flat := pats.flatMap fun p => ["|".toList, p.print] with hflat
  set tail := spaced bts ++ ' ' :: (Kw.print .dsemi ++ rest) with htail
  have hrestBlank : AtBlank rest := atBlank_spaced _ _ (atBlank_cons _)
  have htext : spaced (patternToks pat pats ++ ")".toList :: bts ++ ";;".toList :: ats) ++
      ' ' :: ("esac".toList ++ r) =
      ' ' :: (pat.print ++ (spaced flat ++ ' ' :: ')' :: tail)) := by
    simp [patternToks, Kw.print, hflat, htail, hrest]
  have hskip := skipWsPos_starts (starts_word pat) (' ' :: b) (spaced flat ++ ' ' :: ')' :: tail)
  have hesac := misses_word pat "esac".toList (by decide) (' ' :: b)
    (spaced flat ++ ' ' :: ')' :: tail) (atBlank_spaced _ _ (atBlank_cons _))
  have hparen : (pat.print ++ (spaced flat ++ ' ' :: ')' :: tail)).head? ≠ some '(' := by
    obtain ⟨c, s, hc, -, -, hne, -⟩ := print_head_ne pat
    simpa [hc] using hne
  have hlen : pats.length < (pat.print ++ (spaced flat ++ ' ' :: ')' :: tail)).length + 1 := by
    have hle := length_le_spaced flat
    have hcount := length_patternToks pats
    rw [← hflat] at hcount
    simp only [List.length_append] at hle ⊢
    omega
  obtain ⟨b₁, hpats⟩ := casePatterns_print pat pats _ hlen (' ' :: b) tail
  rw [← hflat] at hpats
  obtain ⟨b₂, hlist⟩ := hbody [.dsemi, .esac] .dsemi (by simp) b₁ rest hrestBlank
  rw [← htail] at hlist
  have hskip₂ := skipWsPos_starts (starts_kw .dsemi) b₂ rest
  have hdsemi : matchDsemiAt ⟨b₂, Kw.print .dsemi ++ rest⟩ = _ :=
    matchMarkAt_self (starts_kw .dsemi) b₂ rest
  obtain ⟨b₃, harms⟩ := harms ((Kw.print .dsemi).reverse ++ b₂) r hr
  rw [← hrest] at harms
  refine ⟨b₃, ?_⟩
  rw [htext, caseArms, skipWsPos_blank, hskip]
  simp only [hesac, hparen, if_false, hpats, hlist, hskip₂, hdsemi, harms, Option.bind_eq_bind,
    Option.bind_some, Option.map_some]
  rfl

theorem case_ok {rec : ListParser} (word : SWord) {ats : List Text} {arms : List CaseArm}
    (harms : ∀ n, ats.length < n → ArmsOk rec n ats arms) :
    CompoundOk rec ("case".toList :: word.print :: "in".toList :: ats ++ ["esac".toList])
      (.cs word.text arms) := by
  intro b r hr
  set rest := spaced ats ++ ' ' :: ("esac".toList ++ r) with hrest
  have hrestBlank : AtBlank rest := atBlank_spaced _ _ (atBlank_cons _)
  have htext : unspaced ("case".toList :: word.print :: "in".toList :: ats ++ ["esac".toList]) ++ r =
      "case".toList ++ ' ' :: (word.print ++ ' ' :: ("in".toList ++ rest)) := by
    simp [unspaced, hrest]
  have hcase := matchKwAt_self "case".toList ⟨_, _, rfl, by decide⟩ b
    (' ' :: (word.print ++ ' ' :: ("in".toList ++ rest))) (atBlank_cons _)
  set b₁ := "case".toList.reverse ++ b
  have hskip := skipWsPos_starts (starts_word word) (' ' :: b₁) (' ' :: ("in".toList ++ rest))
  have hword : nonEmptyWord scanForWord
      ⟨' ' :: b₁, word.print ++ ' ' :: ("in".toList ++ rest)⟩ = _ :=
    nonEmptyWord_print forWordStop_stopsAtBlank word _ _ (atBlank_cons _)
  have hin := matchKwAt_self "in".toList ⟨_, _, rfl, by decide⟩
    (' ' :: (word.print.reverse ++ ' ' :: b₁)) rest hrestBlank
  have hlen : ats.length < rest.length + 1 := by
    have hle := length_le_spaced ats
    simp only [hrest, List.length_append]
    omega
  obtain ⟨b₂, harms⟩ :=
    harms _ hlen ("in".toList.reverse ++ ' ' :: (word.print.reverse ++ ' ' :: b₁)) r hr
  rw [← hrest] at harms
  refine ⟨b₂, ?_⟩
  rw [htext, compoundAt_case rec b _ (atBlank_cons _)]
  simp only [parseCase, hcase, skipWsPos_blank, hskip, hword, matchKwAt_blank, hin, harms,
    Option.bind_eq_bind, Option.bind_some]
  rfl

/-- The parentheses after a function name. -/
private theorem matchEmptyParens_print (b r : Text) :
    matchEmptyParens ⟨b, '(' :: ' ' :: ')' :: r⟩ = some ⟨')' :: ' ' :: '(' :: b, r⟩ := rfl

private theorem matchLbraceAt_print (b r : Text) :
    matchLbraceAt ⟨b, '\x7b' :: r⟩ = some ⟨'\x7b' :: b, r⟩ := rfl

private theorem matchLbraceAt_blank (b r : Text) :
    matchLbraceAt ⟨b, ' ' :: r⟩ = matchLbraceAt ⟨' ' :: b, r⟩ := rfl

/-- The body of a function definition and its closing brace. -/
private theorem fnBody_ok {rec : ListParser} {bts : List Text} {body : PList}
    (hbody : ListOk rec bts body) (b r : Text) (hr : AtBlank r) :
    ∃ b₁ b₂, rec [.rbrace] true .always ⟨b, spaced bts ++ ' ' :: (Kw.print .rbrace ++ r)⟩ =
        some (body, ⟨b₁, Kw.print .rbrace ++ r⟩) ∧
      matchRbraceAt ⟨b₁, Kw.print .rbrace ++ r⟩ = some ⟨b₂, r⟩ := by
  obtain ⟨b₁, hlist⟩ := hbody [.rbrace] .rbrace (by simp) b r hr
  exact ⟨b₁, _, hlist, matchMarkAt_self (starts_kw .rbrace) b₁ r⟩

/-- A function name and `()` before the brace. -/
private theorem looksLikeFnDef_posix (name : FnName) (b r : Text) :
    looksLikeFnDef ⟨b, name.text ++ ' ' :: '(' :: ' ' :: ')' :: ' ' :: '\x7b' :: r⟩ = true := by
  rw [looksLikeFnDef, scanFnName_print name b _ (atBlank_cons _)]
  rfl

private theorem compoundAt_posix (rec : ListParser) (name : FnName) (b r : Text) :
    compoundAt rec ⟨b, name.text ++ ' ' :: '(' :: ' ' :: ')' :: ' ' :: '\x7b' :: r⟩ =
      some (parseFn rec false
        ⟨b, name.text ++ ' ' :: '(' :: ' ' :: ')' :: ' ' :: '\x7b' :: r⟩) := by
  have hmiss : ∀ kw ∈ reserved, isPlainTok kw = true →
      (matchKwAt kw ⟨b, name.text ++ ' ' :: '(' :: ' ' :: ')' :: ' ' :: '\x7b' :: r⟩).isSome =
        false := by
    intro kw hkw hplain
    refine miss (isPlainTok_fnName name) hplain ?_ b _ (atBlank_cons _)
    rintro heq
    exact name.unreserved (heq ▸ hkw)
  simp only [compoundAt, hmiss "if".toList (by decide) (by decide),
    hmiss "while".toList (by decide) (by decide), hmiss "for".toList (by decide) (by decide),
    hmiss "case".toList (by decide) (by decide), hmiss "[[".toList (by decide) (by decide),
    hmiss "function".toList (by decide) (by decide), looksLikeFnDef_posix, Bool.false_eq_true,
    if_false, if_true]

theorem fn_ok {rec : ListParser} (form : FnForm) (name : FnName) {bts : List Text} {body : PList}
    (hbody : ListOk rec bts body) :
    CompoundOk rec (fnToks name form ++ bts ++ [['\x7d']]) (.fn name.text body) := by
  intro b r hr
  set tail := spaced bts ++ ' ' :: (Kw.print .rbrace ++ r) with htail
  have hname : ∀ b u, scanFnName ⟨b, ' ' :: (name.text ++ ' ' :: u)⟩ =
      some (name.text, ⟨name.text.reverse ++ ' ' :: b, ' ' :: u⟩) :=
    fun b u => scanFnName_print name (' ' :: b) (' ' :: u) (atBlank_cons _)
  have hkeyword := fun u => matchKwAt_self "function".toList ⟨_, _, rfl, by decide⟩ b
    (' ' :: u) (atBlank_cons _)
  have hskip : ∀ (c : Char) b u, isspace c = false →
      skipWsPos ⟨b, ' ' :: c :: u⟩ = ⟨' ' :: b, c :: u⟩ := by
    intro c b u hc
    simpa using skipWsPos_starts (t := [c]) ⟨c, [], rfl, hc⟩ (' ' :: b) u
  cases form with
  | keyword =>
      set b₀ := '\x7b' :: ' ' :: (name.text.reverse ++ ' ' :: ("function".toList.reverse ++ b))
      obtain ⟨b₁, b₂, hlist, hclose⟩ := fnBody_ok hbody b₀ r hr
      rw [← htail] at hlist
      have htext : unspaced (fnToks name .keyword ++ bts ++ [['\x7d']]) ++ r =
          "function".toList ++ ' ' :: (name.text ++ ' ' :: '\x7b' :: tail) := by
        simp [unspaced, fnToks, htail, Kw.print]
      refine ⟨b₂, ?_⟩
      rw [htext, compoundAt_function rec b _ (atBlank_cons _)]
      simp only [parseFn, if_true, hkeyword, hname, hskip '\x7b' _ _ (by decide),
        List.head?_cons, Option.some.injEq, Char.reduceEq, if_false,
        matchLbraceAt_print, Option.bind_eq_bind, Option.bind_some]
      rw [hlist]
      simp only [Option.bind_some, hclose]
  | keywordParens =>
      set b₀ := '\x7b' :: ' ' :: ')' :: ' ' :: '(' :: ' ' ::
        (name.text.reverse ++ ' ' :: ("function".toList.reverse ++ b))
      obtain ⟨b₁, b₂, hlist, hclose⟩ := fnBody_ok hbody b₀ r hr
      rw [← htail] at hlist
      have htext : unspaced (fnToks name .keywordParens ++ bts ++ [['\x7d']]) ++ r =
          "function".toList ++ ' ' :: (name.text ++ ' ' :: '(' :: ' ' :: ')' :: ' ' :: '\x7b' :: tail) := by
        simp [unspaced, fnToks, htail, Kw.print]
      refine ⟨b₂, ?_⟩
      rw [htext, compoundAt_function rec b _ (atBlank_cons _)]
      simp only [parseFn, if_true, hkeyword, hname, hskip '(' _ _ (by decide),
        List.head?_cons, matchEmptyParens_print, matchLbraceAt_blank,
        matchLbraceAt_print, Option.bind_eq_bind, Option.bind_some]
      rw [hlist]
      simp only [Option.bind_some, hclose]
  | posix =>
      set b₀ := '\x7b' :: ' ' :: ')' :: ' ' :: '(' :: ' ' :: (name.text.reverse ++ b)
      obtain ⟨b₁, b₂, hlist, hclose⟩ := fnBody_ok hbody b₀ r hr
      rw [← htail] at hlist
      have htext : unspaced (fnToks name .posix ++ bts ++ [['\x7d']]) ++ r =
          name.text ++ ' ' :: '(' :: ' ' :: ')' :: ' ' :: '\x7b' :: tail := by
        simp [unspaced, fnToks, htail, Kw.print]
      refine ⟨b₂, ?_⟩
      rw [htext, compoundAt_posix]
      simp only [parseFn, Bool.false_eq_true, if_false, scanFnName_print name b _ (atBlank_cons _),
        hskip '(' _ _ (by decide),
        List.head?_cons, if_true, matchEmptyParens_print, matchLbraceAt_blank,
        matchLbraceAt_print, Option.bind_eq_bind, Option.bind_some]
      rw [hlist]
      simp only [Option.bind_some, hclose]

end Petrush.Verified.Compounds
