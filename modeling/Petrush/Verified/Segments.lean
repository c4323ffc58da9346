import Petrush.Verified.Connectors
import Petrush.Verified.Scanning
import Petrush.Verified.Surface

/-!
# Printed pipelines through the lexer

The connector scan passes over every token of a printed pipeline, and
`petrush_parse_pipeline` reads the segment back as the pipeline it was printed
from.
-/

namespace Petrush.Verified.Segments

open Petrush.Lib.CText
open Petrush.Mid.Ast
open Petrush.Mid.Lexer
open Petrush.Mid.Parser
open Petrush.Verified.Connectors
open Petrush.Verified.Scanning
open Petrush.Verified.Surface

/-! ## Tokens with blanks before them -/

/-- Tokens, each with a blank before it. -/
def spaced (ts : List Text) : Text := ts.flatMap (' ' :: ·)

@[simp] theorem spaced_nil : spaced [] = [] := rfl

@[simp] theorem spaced_cons (t : Text) (ts : List Text) :
    spaced (t :: ts) = ' ' :: (t ++ spaced ts) := rfl

@[simp] theorem spaced_append (ts us : List Text) :
    spaced (ts ++ us) = spaced ts ++ spaced us := by simp [spaced]

theorem intercalate_blank (t : Text) (ts : List Text) :
    List.intercalate [' '] (t :: ts) = t ++ spaced ts := by
  induction ts generalizing t with
  | nil => simp [List.intercalate]
  | cons u us ih =>
      have hu := ih u
      simp only [List.intercalate, List.intersperse_cons_cons, List.flatten_cons] at hu ⊢
      rw [hu]
      simp

/-- Where a token may end: at the end of the text or at a blank. -/
def AtBlank (s : Text) : Prop := s = [] ∨ ∃ r, s = ' ' :: r

theorem atBlank_nil : AtBlank [] := Or.inl rfl

theorem atBlank_cons (r : Text) : AtBlank (' ' :: r) := Or.inr ⟨r, rfl⟩

theorem atBlank_spaced (ts : List Text) (r : Text) (hr : AtBlank r) :
    AtBlank (spaced ts ++ r) := by
  cases ts with
  | nil => exact hr
  | cons t ts => exact atBlank_cons _

/-! ## Words -/

/-- What a character of an unquoted word is not. -/
theorem isWordChar_iff (c : Char) :
    isWordChar c = true ↔
      isspace c = false ∧ isQuote c = false ∧ c ≠ '$' ∧ c ≠ ';' ∧ c ≠ '|' ∧ c ≠ '&' ∧ c ≠ '<' ∧
        c ≠ '>' ∧ c ≠ '(' ∧ c ≠ ')' ∧ c ≠ '\x7b' ∧ c ≠ '\x7d' := by
  simp [isWordChar, and_assoc]

/-- A scanner's stop test: it runs through word characters and stops at a blank. -/
structure StopsAtBlank (stop : Text → Bool) : Prop where
  wordChar : ∀ c s, isWordChar c = true → stop (c :: s) = false
  blank : ∀ s, stop (' ' :: s) = true

theorem wordStop_stopsAtBlank : StopsAtBlank wordStop where
  wordChar c s h := by
    obtain ⟨hsp, -, -, -, hp, ha, hl, hg, -⟩ := (isWordChar_iff c).mp h
    simp [wordStop, hsp, hp, hl, hg, ha]
  blank s := rfl

theorem forWordStop_stopsAtBlank : StopsAtBlank forWordStop where
  wordChar c s h := by
    obtain ⟨hsp, -, -, hsc, hp, ha, hl, hg, -⟩ := (isWordChar_iff c).mp h
    simp [forWordStop, hsp, hsc, hp, hl, hg, ha]
  blank s := rfl

theorem casePatternStop_stopsAtBlank : StopsAtBlank casePatternStop where
  wordChar c s h := by
    obtain ⟨hsp, -, -, hsc, hp, ha, hl, hg, -, hrp, -⟩ := (isWordChar_iff c).mp h
    simp [casePatternStop, hsp, hsc, hp, hl, hg, ha, hrp]
  blank s := rfl

/-- A printed word is scanned whole, up to the blank after it. -/
theorem scanWith_print {stop : Text → Bool} (hstop : StopsAtBlank stop) (w : SWord) (r : Text)
    (hr : AtBlank r) : scanWith stop (w.print ++ r) = (w.toWord, w.print.length) := by
  cases w with
  | single s hne h =>
      have hs := scanWith_quoted stop '\'' s r (by decide) h
      simpa [SWord.print, SWord.toWord, SWord.text, SWord.quoted] using hs
  | double s hne h =>
      have hs := scanWith_quoted stop '"' s r (by decide) h
      simpa [SWord.print, SWord.toWord, SWord.text, SWord.quoted] using hs
  | bare s hne h hres =>
      have hzero : wordLen stop 0 r = 0 := by
        rcases hr with rfl | ⟨r, rfl⟩
        · rfl
        · simp [wordLen, hstop.blank]
      refine scanWith_plain stop s r hne ?_ ?_ hzero
      · exact fun c hc => ((isWordChar_iff c).mp (h c hc)).2.1
      · exact fun c hc =>
          ⟨((isWordChar_iff c).mp (h c hc)).2.2.1, fun u => hstop.wordChar c u (h c hc)⟩

/-- The first character of a printed word: a quote or a word character. -/
theorem print_head (w : SWord) :
    ∃ c s, w.print = c :: s ∧ (isQuote c = true ∨ isWordChar c = true) := by
  cases w with
  | single s hne h => exact ⟨'\'', s ++ ['\''], rfl, Or.inl (by decide)⟩
  | double s hne h => exact ⟨'"', s ++ ['"'], rfl, Or.inl (by decide)⟩
  | bare s hne h hres =>
      cases s with
      | nil => contradiction
      | cons c s => exact ⟨c, s, rfl, Or.inr (h c (by simp))⟩

/-- The tokenizer at a printed word. -/
theorem nextToken_word (w : SWord) (r : Text) (hr : AtBlank r) :
    nextToken (w.print ++ r) = some (.word w.toWord, w.print.length) := by
  have hscan := scanWith_print wordStop_stopsAtBlank w r hr
  obtain ⟨c, s, hc, hhead⟩ := print_head w
  have hnext : nextToken (c :: (s ++ r)) =
      some (.word (scanWord (c :: (s ++ r))).1, (scanWord (c :: (s ++ r))).2) := by
    rcases hhead with hq | hw
    · exact nextToken_of_isQuote _ hq
    · obtain ⟨-, hnq, -, -, hp, ha, hl, hg, -⟩ := (isWordChar_iff c).mp hw
      refine nextToken_of_not_op _ ⟨hp, hl, hg, ha⟩ fun _ => ?_
      -- a word that starts unquoted has word characters up to the blank
      cases w with
      | single t _ _ =>
          obtain rfl := (List.cons.inj hc).1
          contradiction
      | double t _ _ =>
          obtain rfl := (List.cons.inj hc).1
          contradiction
      | bare t hne hchars hres =>
          have ht : t = c :: s := hc
          cases s with
          | cons d s =>
              have hd := (isWordChar_iff d).mp (hchars d (by simp [ht]))
              simpa using hd.2.2.2.2.2.2.2.1
          | nil => rcases hr with rfl | ⟨r, rfl⟩ <;> simp
  rw [hc, List.cons_append] at hscan ⊢
  rw [hnext]
  simp [scanWord, hscan]

/-! ## Tokens of a pipeline -/

/-- The tokenizer at a printed token. -/
theorem nextToken_print (t : STok) (r : Text) (hr : AtBlank r) :
    nextToken (t.print ++ r) = some (t.toToken, t.print.length) := by
  cases t with
  | word w => exact nextToken_word w r hr
  | op k => rcases hr with rfl | ⟨r, rfl⟩ <;> cases k <;> rfl

/-- A printed token begins with no blank. -/
theorem print_head_not_blank (t : STok) :
    ∃ c s, t.print = c :: s ∧ isspace c = false := by
  cases t with
  | op k => cases k <;> exact ⟨_, _, rfl, by decide⟩
  | word w =>
      obtain ⟨c, s, hc, hq | hw⟩ := print_head w
      · exact ⟨c, s, hc, isspace_of_isQuote hq⟩
      · exact ⟨c, s, hc, ((isWordChar_iff c).mp hw).1⟩

theorem tokenizeFrom_print (t : STok) (r : Text) (hr : AtBlank r) :
    tokenizeFrom 0 (t.print ++ r) = (tokenizeFrom 0 r).map (t.toToken :: ·) := by
  have hnext := nextToken_print t r hr
  obtain ⟨c, s, hc, hsp⟩ := print_head_not_blank t
  rw [hc, List.cons_append] at hnext ⊢
  rw [tokenizeFrom_token hsp hnext]
  simp

theorem tokenizeFrom_spaced (ts : List STok) :
    tokenizeFrom 0 (spaced (ts.map STok.print)) = some (ts.map STok.toToken) := by
  induction ts with
  | nil => rfl
  | cons t ts ih =>
      have hr : AtBlank (spaced (ts.map STok.print)) := by
        simpa using atBlank_spaced (ts.map STok.print) [] atBlank_nil
      have hblank : ∀ s, tokenizeFrom 0 (' ' :: s) = tokenizeFrom 0 s := fun _ => rfl
      rw [List.map_cons, spaced_cons, hblank, tokenizeFrom_print t _ hr, ih]
      rfl

/-- The tokens of a printed text are the tokens it was printed from. -/
theorem tokenize_print (t : STok) (ts : List STok) :
    tokenize (t.print ++ spaced (ts.map STok.print)) = some ((t :: ts).map STok.toToken) :=
  -- a blank before the text changes nothing
  tokenizeFrom_spaced (t :: ts)

/-! ## Stages -/

/-- The fields that `StagePart.addTo` does not describe are at rest. -/
private def AtRest (cmd : Cmd) : Prop :=
  cmd.hereBody = none ∧ cmd.hereSkipDelims = [] ∧ cmd.hereFeedI = 0

/-- One part through `build_stage`. -/
private theorem buildStageFrom_part (cmd : Cmd) (part : StagePart) (toks : List Token)
    (hrest : AtRest cmd) (hhere : part.isHereDoc = true → cmd.hereDelim = none) :
    buildStageFrom cmd (part.toks.map STok.toToken ++ toks) =
      buildStageFrom (part.addTo cmd) toks := by
  obtain ⟨hbody, hskip, hfeed⟩ := hrest
  cases part with
  | word w => rfl
  | stdin p =>
      simp [StagePart.toks, STok.toToken, buildStageFrom, applyRedir, hereClear,
        StagePart.addTo, SWord.toWord, hbody, hskip, hfeed]
  | stdout append p => cases append <;> rfl
  | stderr append p => cases append <;> rfl
  | errToOut => rfl
  | both p => rfl
  | hereDoc strip d =>
      have hnone := hhere rfl
      have hdless : (TokKind.dless == TokKind.dlessdash) = false := rfl
      cases strip <;>
        simp [StagePart.toks, STok.toToken, buildStageFrom, applyRedir, StagePart.addTo,
          SWord.toWord, hbody, hskip, hfeed, hnone, hdless]

private theorem atRest_addTo (cmd : Cmd) (part : StagePart) (h : AtRest cmd) :
    AtRest (part.addTo cmd) := by
  cases part <;> exact h

private theorem hereDelim_addTo (cmd : Cmd) (part : StagePart) (hp : part.isHereDoc = false)
    (h : cmd.hereDelim = none) : (part.addTo cmd).hereDelim = none := by
  cases part with
  | hereDoc strip d => contradiction
  | stdin p => rfl
  | _ => exact h

/-- The parts of a stage through `build_stage`: at most one here-document is
still to come, and none once one has been read. -/
private theorem buildStageFrom_parts (parts : List StagePart) (cmd : Cmd) (hrest : AtRest cmd)
    (hone : parts.countP StagePart.isHereDoc ≤ 1)
    (hhere : cmd.hereDelim = none ∨ parts.countP StagePart.isHereDoc = 0) :
    buildStageFrom cmd ((parts.flatMap StagePart.toks).map STok.toToken) =
      some (parts.foldl StagePart.addTo cmd) := by
  induction parts generalizing cmd with
  | nil => rfl
  | cons part parts ih =>
      have hpart : part.isHereDoc = true → cmd.hereDelim = none := by
        intro hp
        rcases hhere with h | h
        · exact h
        · simp [hp] at h
      rw [List.flatMap_cons, List.map_append, buildStageFrom_part cmd part _ hrest hpart,
        List.foldl_cons]
      rw [List.countP_cons] at hone hhere
      refine ih _ (atRest_addTo cmd part hrest) (by omega) ?_
      cases hp : part.isHereDoc with
      | true =>
          simp only [hp, if_true] at hone
          exact Or.inr (by omega)
      | false =>
          simp only [hp, Bool.false_eq_true, if_false] at hhere
          exact hhere.imp (hereDelim_addTo cmd part hp) (by omega)

private theorem argv_foldl_addTo (parts : List StagePart) (cmd : Cmd)
    (h : cmd.argv ≠ [] ∨ ∃ part ∈ parts, part.isWord = true) :
    (parts.foldl StagePart.addTo cmd).argv ≠ [] := by
  induction parts generalizing cmd with
  | nil => simpa using h
  | cons part parts ih =>
      refine ih _ ?_
      rcases h with h | ⟨p, hp, hw⟩
      · left
        cases part with
        | word w => simp [StagePart.addTo]
        | _ => exact h
      · rcases List.mem_cons.mp hp with rfl | hp
        · left
          cases p with
          | word w => simp [StagePart.addTo]
          | _ => contradiction
        · exact Or.inr ⟨p, hp, hw⟩

/-- A printed stage is built back. -/
theorem buildStage_toks (st : SStage) :
    buildStage (st.toks.map STok.toToken) = some st.toCmd := by
  have hfrom := buildStageFrom_parts st.parts {} ⟨rfl, rfl, rfl⟩ st.oneHereDoc (Or.inl rfl)
  have hargv : st.toCmd.argv ≠ [] := argv_foldl_addTo st.parts {} (Or.inr st.hasWord)
  simp only [buildStage, SStage.toks, hfrom]
  exact if_neg hargv

/-! ## Pipelines -/

private theorem pipe_not_mem_toks (st : SStage) :
    ∀ tok ∈ st.toks.map STok.toToken, (tok == Token.op .pipe) = false := by
  intro tok htok
  obtain ⟨t, ht, rfl⟩ := List.mem_map.mp htok
  obtain ⟨part, -, ht⟩ := List.mem_flatMap.mp ht
  cases part with
  | word w => simp_all [StagePart.toks, STok.toToken]
  | errToOut => simp_all [StagePart.toks, STok.toToken]
  | stdin p => rcases (by simpa [StagePart.toks] using ht) with rfl | rfl <;> rfl
  | both p => rcases (by simpa [StagePart.toks] using ht) with rfl | rfl <;> rfl
  | stdout append p =>
      rcases (by simpa [StagePart.toks] using ht) with rfl | rfl <;> cases append <;> rfl
  | stderr append p =>
      rcases (by simpa [StagePart.toks] using ht) with rfl | rfl <;> cases append <;> rfl
  | hereDoc strip d =>
      rcases (by simpa [StagePart.toks] using ht) with rfl | rfl <;> cases strip <;> rfl

private theorem splitOnP_pipelineToks (st : SStage) (sts : List SStage) :
    ((pipelineToks st sts).map STok.toToken).splitOnP (· == .op .pipe) =
      (st :: sts).map fun st' => st'.toks.map STok.toToken := by
  induction sts generalizing st with
  | nil =>
      rw [show pipelineToks st [] = st.toks by simp [pipelineToks]]
      exact List.splitOnP_eq_singleton (pipe_not_mem_toks st)
  | cons st' sts ih =>
      have htoks : (pipelineToks st (st' :: sts)).map STok.toToken =
          st.toks.map STok.toToken ++ Token.op .pipe :: (pipelineToks st' sts).map STok.toToken := by
        simp [pipelineToks, STok.toToken]
      rw [htoks, List.splitOnP_append_cons_of_forall_mem (pipe_not_mem_toks st) _ rfl, ih st']
      rfl

private theorem mapM_buildStage (sts : List SStage) :
    (sts.map fun st => st.toks.map STok.toToken).mapM buildStage =
      some (sts.map SStage.toCmd) := by
  induction sts with
  | nil => rfl
  | cons st sts ih => simp [buildStage_toks st, ih]

theorem toks_ne_nil (st : SStage) : st.toks ≠ [] := by
  obtain ⟨part, hmem, hword⟩ := st.hasWord
  cases part with
  | word w =>
      have hw : STok.word w ∈ st.toks := List.mem_flatMap.mpr ⟨_, hmem, by simp [StagePart.toks]⟩
      exact List.ne_nil_of_mem hw
  | _ => contradiction

theorem exists_pipelineToks (st : SStage) (sts : List SStage) :
    ∃ t ts, pipelineToks st sts = t :: ts :=
  List.exists_cons_of_ne_nil fun h => toks_ne_nil st (List.append_eq_nil_iff.mp h).1

/-- **A printed pipeline is parsed back.** -/
theorem parsePipeline_print (st : SStage) (sts : List SStage) (t : STok) (ts : List STok)
    (h : pipelineToks st sts = t :: ts) :
    parsePipeline (t.print ++ spaced (ts.map STok.print)) =
      some ⟨(st :: sts).map SStage.toCmd⟩ := by
  have hsplit := splitOnP_pipelineToks st sts
  rw [h] at hsplit
  rw [parsePipeline, tokenize_print t ts, Option.bind_some, pipelineOf, if_neg (by simp), hsplit,
    mapM_buildStage]
  rfl

/-! ## The connector scan -/

theorem passes_wordChars (s r : Text) (h : ∀ c ∈ s, isWordChar c = true) : Passes s r := by
  refine passes_plain s r fun c hc => ?_
  obtain ⟨-, hq, hd, hsc, hp, ha, -⟩ := (isWordChar_iff c).mp (h c hc)
  exact ⟨hq, hd, hsc, ha, hp⟩

theorem passes_word (w : SWord) (r : Text) : Passes w.print r := by
  cases w with
  | bare s hne h hres => exact passes_wordChars s r h
  | single s hne h => exact passes_quoted '\'' s r (by decide) h
  | double s hne h => exact passes_quoted '"' s r (by decide) h

theorem passes_blank (r : Text) : Passes [' '] r :=
  passes_ordinary r rfl (by decide) (by decide)

/-- The operators hold no connector: `&` only stands in `&>` and `2>&1`, and `|`
has a blank after it. -/
theorem passes_op (k : TokKind) (r : Text) (hr : AtBlank r) : Passes (opText k) r := by
  cases k with
  | pipe => exact passes_pipe r (by rcases hr with rfl | ⟨r, rfl⟩ <;> simp)
  | ampgt => exact passes_ampgt r
  | errtoout => exact passes_errtoout r
  | _ => exact passes_plain _ r (by simp [opText, isQuote])

theorem passes_print (t : STok) (r : Text) (hr : AtBlank r) : Passes t.print r := by
  cases t with
  | word w => exact passes_word w r
  | op k => exact passes_op k r hr

theorem passes_spaced (ts : List STok) (r : Text) (hr : AtBlank r) :
    Passes (spaced (ts.map STok.print)) r := by
  induction ts with
  | nil => exact passes_nil r
  | cons t ts ih =>
      have ht := passes_print t (spaced (ts.map STok.print) ++ r) (atBlank_spaced _ r hr)
      have hblank : Passes [' '] (t.print ++ (spaced (ts.map STok.print) ++ r)) := passes_blank _
      rw [List.map_cons, spaced_cons]
      refine Passes.append (t := [' ']) ?_ (ht.append ih)
      simpa using hblank

/-! ## Separators -/

/-- What the scan reports of a separator. -/
def sepConnector (sep : Sep) : Connector := ⟨sep.next, sep.print.length, sep.isBg⟩

theorem findFrom_sep (sep : Sep) (p2 : Option Char) (r : Text) (hr : AtBlank r) :
    findFrom p2 (some ' ') none 0 (sep.print ++ r) = some (0, sepConnector sep) := by
  rcases hr with rfl | ⟨r, rfl⟩ <;> cases sep <;>
    simp [Sep.print, findFrom, isQuote, connectorAt, sepConnector, Sep.next, Sep.isBg]

/-- The scan stops at the separator that follows a blank. -/
theorem findListConnector_sep (b t : Text) (sep : Sep) (r : Text) (hr : AtBlank r)
    (ht : Passes t (' ' :: (sep.print ++ r))) :
    findListConnector ⟨b, t ++ ' ' :: (sep.print ++ r)⟩ =
      some (t.length + 1, sepConnector sep) := by
  have hblank : ∀ p, scanAt p (' ' :: (sep.print ++ r)) = some (1, sepConnector sep) := by
    intro p
    simp [findFrom, isQuote, connectorAt, findFrom_sep sep p.2 r hr]
  have hscan := ht (b.tail.head?, b.head?)
  rw [hblank] at hscan
  rw [findListConnector_eq, hscan]
  simp [Nat.add_comm]

/-- Without a separator the scan reaches the end. -/
theorem findListConnector_end (b t : Text) (ht : Passes t []) :
    findListConnector ⟨b, t⟩ = none := by
  have hscan := ht (b.tail.head?, b.head?)
  rw [List.append_nil] at hscan
  rw [findListConnector_eq, hscan]
  rfl

end Petrush.Verified.Segments
