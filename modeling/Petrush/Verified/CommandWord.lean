import Petrush.Verified.LineScan
import Petrush.Verified.Segments
import Petrush.Verified.Stages

/-!
# Where the command word stands

The command word of a line, as `petrush_parse_list` delimits it: the first word of the
first stage that no redirection takes, with its place in the line.

## Main results

* `parsePipeline_firstSegment`: what the parser makes the first item of.
* `commandWord_spec`: the command word is `argv[0]` of the first command.
* `commandWord_text`: what stands at its place.
* `commandWord_plain`, `commandWord_stops`: a word of plain bytes.
-/

namespace Petrush.Verified.CommandWord

open Petrush.Lib.CText
open Petrush.Mid.Ast
open Petrush.Mid.Lexer
open Petrush.Mid.Parser
open Petrush.Verified.Connectors
open Petrush.Verified.LineScan
open Petrush.Verified.Scanning
open Petrush.Verified.Segments
open Petrush.Verified.Stages
open Petrush.Verified.Surface

/-! ## Definitions -/

/-- The text of the first item, when it is a pipeline. -/
def firstSegment (line : Text) : Text :=
  let c := skipWsPos ⟨[], line⟩
  trim isspace (c.after.take (((findListConnector c).map Prod.fst).getD c.after.length))

/-- A token with its place and its length. -/
structure Placed where
  start : Nat
  tok : Token
  len : Nat

/-- The tokens of a text that stands at `i`, as `tokenize` reads them. -/
def placedFrom : Nat → Nat → Text → List Placed
  | _, _, [] => []
  | skip + 1, i, _ :: s => placedFrom skip (i + 1) s
  | 0, i, c :: s =>
      if isspace c then placedFrom 0 (i + 1) s
      else
        match nextToken (c :: s) with
        | none => []
        | some (tok, len) => ⟨i, tok, len⟩ :: placedFrom (len - 1) (i + 1) s

/-- The first word that is not the target of a redirection, in the first stage. -/
def firstWord : List Placed → Option (Nat × Word × Nat)
  | [] => none
  | ⟨i, .word w, len⟩ :: _ => some (i, w, len)
  | ⟨_, .op .errtoout, _⟩ :: toks => firstWord toks
  | ⟨_, .op _, _⟩ :: ⟨_, .word _, _⟩ :: toks => firstWord toks
  | _ => none

/-- The command word of a line without leading blanks: its place, the word and its
length. -/
def commandWord (line : Text) : Option (Nat × Word × Nat) :=
  firstWord (placedFrom 0 0 (firstSegment line))

/-! ## The parser -/

theorem skipWsFrom_after (b s : Text) : (skipWsFrom b s).after = s.dropWhile isspace := by
  induction s generalizing b with
  | nil => rfl
  | cons c s ih =>
      by_cases hc : isspace c = true
      · rw [skipWsFrom, if_pos hc, ih, List.dropWhile_cons_of_pos hc]
      · rw [skipWsFrom, if_neg hc, List.dropWhile_cons_of_neg hc]

theorem parseFn_kind {rec : ListParser} {fromKw : Bool} {c c' : Cursor} {pl : Pipeline} :
    parseFn rec fromKw c ≠ some (.pipeline pl, c') := by
  intro h
  cases fromKw with
  | false =>
      simp only [parseFn, Bool.false_eq_true, if_false, Option.bind_eq_bind,
        Option.bind_eq_some_iff] at h
      obtain ⟨_, _, _, _, h⟩ := h
      split at h <;> simp [Option.bind_eq_some_iff] at h
  | true =>
      simp only [parseFn, if_true, Option.bind_eq_bind, Option.bind_eq_some_iff] at h
      obtain ⟨_, _, _, _, h⟩ := h
      split at h <;> simp [Option.bind_eq_some_iff] at h

/-- A compound command is not a pipeline. -/
theorem compoundAt_kind {rec : ListParser} {c c' : Cursor} {kind : ItemKind}
    (h : compoundAt rec c = some (some (kind, c'))) (pl : Pipeline) : kind ≠ .pipeline pl := by
  unfold compoundAt at h
  rintro rfl
  split_ifs at h
  · simp [parseIf, Option.bind_eq_some_iff] at h
  · simp [parseWhile, Option.bind_eq_some_iff] at h
  · simp [parseFor, Option.bind_eq_some_iff] at h
  · simp [parseCase, Option.bind_eq_some_iff] at h
  · simp [parseDbracket, Option.bind_eq_some_iff] at h
  · exact parseFn_kind (Option.some.inj h)
  · exact parseFn_kind (Option.some.inj h)

theorem takeConnAfter_kind {kind : ItemKind} {cond next : RunCond} {c c' : Cursor} {it : Item}
    {hadConn : Bool} (h : takeConnAfter kind cond c = .item it next hadConn c') :
    it.kind = kind := by
  simp only [takeConnAfter] at h
  split at h
  · obtain ⟨rfl, -⟩ := ItemResult.item.inj h
    rfl
  · obtain ⟨rfl, -⟩ := ItemResult.item.inj h
    rfl

/-- The pipeline of an item is the one of its text. -/
theorem parseItem_pipeline {rec : ListParser} {cond next : RunCond} {c c' : Cursor} {it : Item}
    {hadConn : Bool} {pl : Pipeline} (h : parseItem rec cond c = some (.item it next hadConn c'))
    (hkind : it.kind = .pipeline pl) :
    let seg := trim isspace
      (c.after.take (((findListConnector c).map Prod.fst).getD c.after.length))
    seg ≠ [] ∧ parsePipeline seg = some pl := by
  unfold parseItem at h
  split at h
  next parsed hcompound =>
    cases parsed with
    | none => simp at h
    | some r =>
        obtain ⟨kind, u⟩ := r
        have hsame := takeConnAfter_kind (Option.some.inj h)
        exact absurd (hsame.symm.trans hkind) (compoundAt_kind hcompound pl)
  next =>
    unfold parsePipelineItem at h
    simp only at h
    split at h
    · split at h <;> simp at h
    next hne =>
      refine ⟨hne, ?_⟩
      split at h
      · simp at h
      · next pl' hpl =>
          rw [hpl]
          split at h
          · obtain ⟨rfl, -⟩ := ItemResult.item.inj (Option.some.inj h)
            simpa using hkind
          · obtain ⟨rfl, -⟩ := ItemResult.item.inj (Option.some.inj h)
            simpa using hkind

theorem listAfterItem_head {rec : ListParser} {it it' : Item} {next : RunCond} {hadConn : Bool}
    {c u : Cursor} {items : PList}
    (h : listAfterItem rec [] false (some (.item it' next hadConn c)) = some (it :: items, u)) :
    it' = it := by
  unfold listAfterItem at h
  cases hadConn with
  | true =>
      obtain ⟨⟨rest, u'⟩, -, hrest⟩ := Option.map_eq_some_iff.mp h
      exact (List.cons.inj (Prod.mk.inj hrest).1).1
  | false =>
      by_cases hend : (skipWsPos c).after = []
      · simp only [Bool.false_eq_true, if_false, hend, if_true, Option.some.injEq,
          Prod.mk.injEq, List.cons.injEq] at h
        exact h.1.1
      · simp [hend, peekKwMask] at h

/-- **The first item of a line**, when it is a pipeline. -/
theorem parsePipeline_firstSegment {line : Text} {it : Item} {items : PList} {pl : Pipeline}
    (h : petrushParseList line = some (it :: items)) (hkind : it.kind = .pipeline pl) :
    firstSegment line ≠ [] ∧ parsePipeline (firstSegment line) = some pl := by
  obtain ⟨⟨list, u⟩, hlist, rfl⟩ := Option.map_eq_some_iff.mp h
  unfold parseListUntil at hlist
  simp only [peekKwMask, List.any_nil, Bool.false_eq_true, if_false] at hlist
  split at hlist
  · simp at hlist
  · cases hitem : parseItem (parseListUntil line.length) .always (skipWsPos ⟨[], line⟩) with
    | none => simp [hitem, listAfterItem] at hlist
    | some r =>
        cases r with
        | stop c => simp [hitem, listAfterItem] at hlist
        | item it' next hadConn c =>
            rw [hitem] at hlist
            rw [listAfterItem_head hlist] at hitem
            exact parseItem_pipeline hitem hkind

/-! ## The first command -/

theorem tokenizeFrom_placed {skip : Nat} {s : Text} {toks : List Token} (i : Nat)
    (h : tokenizeFrom skip s = some toks) : (placedFrom skip i s).map Placed.tok = toks := by
  induction s generalizing skip i toks with
  | nil => cases skip <;> simpa [tokenizeFrom, placedFrom] using h
  | cons c s ih =>
      cases skip with
      | succ skip => exact ih (i + 1) h
      | zero =>
          rw [tokenizeFrom] at h
          rw [placedFrom]
          split at h
          next hsp =>
            rw [if_pos hsp]
            exact ih (i + 1) h
          next hsp =>
            rw [if_neg hsp]
            cases hnext : nextToken (c :: s) with
            | none => simp [hnext] at h
            | some r =>
                obtain ⟨tok, len⟩ := r
                simp only [hnext] at h
                obtain ⟨rest, hrest, rfl⟩ := Option.map_eq_some_iff.mp h
                simp [ih (i + 1) hrest]

/-- The tokens before the first pipe. -/
def firstStage (toks : List Token) : List Token := toks.takeWhile fun t => !(t == .op .pipe)

theorem firstStage_pipe (toks : List Token) : firstStage (.op .pipe :: toks) = [] := rfl

theorem firstStage_cons {t : Token} (ht : t ≠ .op .pipe) (toks : List Token) :
    firstStage (t :: toks) = t :: firstStage toks := by
  simp [firstStage, ht]

theorem splitOnP_firstStage (toks : List Token) :
    ∃ stages, toks.splitOnP (· == .op .pipe) = firstStage toks :: stages := by
  induction toks with
  | nil => exact ⟨[], rfl⟩
  | cons t toks ih =>
      obtain ⟨stages, hstages⟩ := ih
      rw [List.splitOnP_cons_eq_if_modifyHead, hstages]
      by_cases ht : t = .op .pipe
      · subst ht
        exact ⟨firstStage toks :: stages, rfl⟩
      · rw [if_neg (by simpa using ht), firstStage_cons ht]
        exact ⟨stages, rfl⟩

theorem argv_applyRedir {cmd cmd' : Cmd} {k : TokKind} {w : Word}
    (h : applyRedir cmd k w = some cmd') : cmd'.argv = cmd.argv := by
  unfold applyRedir at h
  cases k <;> simp only [Option.some.injEq, reduceCtorEq] at h <;> subst h <;> rfl

/-- The first word is `argv[0]`. -/
theorem firstWord_of_buildStageFrom (placed : List Placed) {cmd cmd' : Cmd}
    (h : buildStageFrom cmd (firstStage (placed.map Placed.tok)) = some cmd')
    (hargv : cmd.argv = []) (hne : cmd'.argv ≠ []) :
    ∃ i w len ws, firstWord placed = some (i, w, len) ∧ cmd'.argv = w :: ws := by
  fun_induction firstWord placed generalizing cmd with
  | case1 =>
      obtain rfl : cmd = cmd' := by simpa [firstStage, buildStageFrom] using h
      contradiction
  | case2 i w len toks =>
      rw [List.map_cons, firstStage_cons (by simp), buildStageFrom] at h
      obtain ⟨ws, hws⟩ := argv_prefix_of_buildStageFrom _ _ _ h
      rw [hargv] at hws
      exact ⟨i, w, len, ws, rfl, hws.symm⟩
  | case3 i len toks ih =>
      rw [List.map_cons, firstStage_cons (by simp), buildStageFrom] at h
      exact ih h hargv
  | case4 i k len j w n toks hk ih =>
      by_cases hpipe : k = .pipe
      · subst hpipe
        rw [List.map_cons, firstStage_pipe, buildStageFrom] at h
        exact absurd hargv (Option.some.inj h ▸ hne)
      · rw [List.map_cons, firstStage_cons (by simp [hpipe]), List.map_cons,
          firstStage_cons (by simp), buildStageFrom] at h
        · split at h
          · simp at h
          next cmd₁ hredir => exact ih h ((argv_applyRedir hredir).trans hargv)
        · exact hk
  | case5 placed hnil hword herr hredir =>
      -- An operator that takes a word has none behind it.
      obtain ⟨⟨i, tok, len⟩, rest, rfl⟩ := List.exists_cons_of_ne_nil hnil
      cases tok with
      | word w => exact absurd rfl (hword i w len rest)
      | op k =>
          by_cases hpipe : k = .pipe
          · subst hpipe
            rw [List.map_cons, firstStage_pipe, buildStageFrom] at h
            exact absurd hargv (Option.some.inj h ▸ hne)
          · have hk : k ≠ .errtoout := fun hk => herr i len rest (by rw [hk])
            rw [List.map_cons, firstStage_cons (by simp [hpipe])] at h
            have hnone : ∀ toks : List Token, (∀ w ∈ toks.head?, ∀ v, w ≠ .word v) →
                buildStageFrom cmd (.op k :: firstStage toks) = none := by
              intro toks hhead
              cases toks with
              | nil => cases k <;> simp_all [firstStage, buildStageFrom]
              | cons t toks =>
                  cases t with
                  | word v => exact absurd rfl (hhead (.word v) rfl v)
                  | op k' =>
                      by_cases hpipe' : k' = .pipe
                      · subst hpipe'
                        cases k <;> simp_all [firstStage, buildStageFrom]
                      · rw [firstStage_cons (by simp [hpipe'])]
                        cases k <;> simp_all [buildStageFrom]
            rw [hnone] at h
            · simp at h
            · intro w hw v hv
              cases rest with
              | nil => simp at hw
              | cons placed rest =>
                  obtain ⟨j, tok, n⟩ := placed
                  obtain rfl : tok = w := by simpa using hw
                  subst hv
                  exact hredir i k len j v n rest rfl

/-- **The command word** of a line is `argv[0]` of its first command. -/
theorem commandWord_spec {line : Text} {it : Item} {items : PList} {pl : Pipeline}
    (h : petrushParseList line = some (it :: items)) (hkind : it.kind = .pipeline pl) :
    ∃ i w len cmd cmds ws, commandWord line = some (i, w, len) ∧ pl.cmds = cmd :: cmds ∧
      cmd.argv = w :: ws := by
  obtain ⟨hne, hpl⟩ := parsePipeline_firstSegment h hkind
  obtain ⟨toks, htoks, hpl⟩ := Option.bind_eq_some_iff.mp hpl
  have hplaced := tokenizeFrom_placed 0 htoks
  have hsome : toks ≠ [] := by
    rintro rfl
    have hblank := isspace_of_tokenizeFrom_nil _ htoks
    obtain ⟨c, s, hc⟩ := List.exists_cons_of_ne_nil hne
    have hhead := trim_head (p := isspace) c (by rw [← firstSegment, hc]; rfl)
    rw [hblank c (by rw [hc]; exact List.mem_cons_self)] at hhead
    contradiction
  rw [pipelineOf, if_neg hsome] at hpl
  obtain ⟨cmds, hcmds, rfl⟩ := Option.map_eq_some_iff.mp hpl
  obtain ⟨stages, hstages⟩ := splitOnP_firstStage toks
  rw [hstages, List.mapM_cons] at hcmds
  simp only [Option.bind_eq_bind, Option.bind_eq_some_iff, Option.pure_def,
    Option.some.injEq] at hcmds
  obtain ⟨cmd, hcmd, cmds', -, rfl⟩ := hcmds
  unfold buildStage at hcmd
  split at hcmd
  · simp at hcmd
  next cmd₁ hbuild =>
    split at hcmd
    · simp at hcmd
    next hargv =>
      obtain rfl := Option.some.inj hcmd
      rw [← hplaced] at hbuild
      obtain ⟨i, w, len, ws, hword, hws⟩ := firstWord_of_buildStageFrom _ hbuild rfl hargv
      exact ⟨i, w, len, cmd₁, cmds', ws, hword, rfl, hws⟩

/-! ## Places -/

theorem placedFrom_token {skip i : Nat} {s : Text} {placed : Placed}
    (h : placed ∈ placedFrom skip i s) :
    i ≤ placed.start ∧ placed.start - i < s.length ∧
      nextToken (s.drop (placed.start - i)) = some (placed.tok, placed.len) := by
  induction s generalizing skip i with
  | nil => cases skip <;> simp [placedFrom] at h
  | cons c s ih =>
      have hlater : ∀ {skip : Nat}, placed ∈ placedFrom skip (i + 1) s → i ≤ placed.start ∧
          placed.start - i < (c :: s).length ∧
          nextToken ((c :: s).drop (placed.start - i)) = some (placed.tok, placed.len) := by
        intro skip hmem
        obtain ⟨hle, hlt, hnext⟩ := ih hmem
        have hdrop : placed.start - i = placed.start - (i + 1) + 1 := by omega
        rw [hdrop, List.drop_succ_cons, List.length_cons]
        exact ⟨by omega, by omega, hnext⟩
      cases skip with
      | succ skip => exact hlater h
      | zero =>
          rw [placedFrom] at h
          split at h
          · exact hlater h
          · cases hnext : nextToken (c :: s) with
            | none => simp [hnext] at h
            | some r =>
                obtain ⟨tok, len⟩ := r
                simp only [hnext] at h
                rcases List.mem_cons.mp h with rfl | hmem
                · exact ⟨Nat.le_refl i, by simp, by simpa using hnext⟩
                · exact hlater hmem

theorem mem_of_firstWord {placed : List Placed} {i len : Nat} {w : Word}
    (h : firstWord placed = some (i, w, len)) : ⟨i, .word w, len⟩ ∈ placed := by
  fun_induction firstWord placed with
  | case1 => simp at h
  | case2 =>
      simp only [Option.some.injEq, Prod.mk.injEq] at h
      obtain ⟨rfl, rfl, rfl⟩ := h
      exact List.mem_cons_self
  | case3 i len toks ih => exact List.mem_cons_of_mem _ (ih h)
  | case4 i k len j w n toks hk ih =>
      exact List.mem_cons_of_mem _ (List.mem_cons_of_mem _ (ih h))
  | case5 => simp at h

/-- A word is what `scan_word` reads. -/
theorem scanWord_of_nextToken {t : Text} {w : Word} {len : Nat}
    (h : nextToken t = some (.word w, len)) : scanWord t = (w, len) := by
  have hword : ∀ r : Word × Nat, some (Token.word r.1, r.2) = some (.word w, len) → r = (w, len) := by
    intro r hr
    simp only [Option.some.injEq, Prod.mk.injEq, Token.word.injEq] at hr
    exact Prod.ext hr.1 hr.2
  unfold nextToken at h
  simp only at h
  split at h
  · exact hword _ h
  · split at h
    · simp at h
    · split at h
      · simp at h
      · simp at h
      · exact hword _ h

/-- The rest of the text after an unquoted word stops it. -/
theorem wordLen_stops (stop : Text → Bool) (skip : Nat) (s : Text) :
    s.drop (wordLen stop skip s) = [] ∨ stop (s.drop (wordLen stop skip s)) = true := by
  induction s generalizing skip with
  | nil => cases skip <;> exact .inl rfl
  | cons c s ih =>
      cases skip with
      | succ skip => exact ih skip
      | zero =>
          rw [wordLen]
          split
          next hstop => exact .inr hstop
          next => exact ih _

theorem wordLen_le (stop : Text → Bool) (skip : Nat) (s : Text) :
    wordLen stop skip s ≤ s.length := by
  induction s generalizing skip with
  | nil => cases skip <;> exact Nat.le_refl 0
  | cons c s ih =>
      cases skip with
      | succ skip => exact Nat.succ_le_succ (ih skip)
      | zero =>
          rw [wordLen]
          split
          · exact Nat.zero_le _
          · exact Nat.succ_le_succ (ih _)

/-- An unquoted word is the text at its place, and a stop follows. -/
theorem scanWord_unquoted {t : Text} {w : Word} {len : Nat} (h : scanWord t = (w, len))
    (hw : w.quoted = .unquoted) :
    w.text = t.take len ∧ len ≤ t.length ∧ (t.drop len = [] ∨ wordStop (t.drop len) = true) := by
  cases t with
  | nil =>
      obtain ⟨rfl, rfl⟩ := Prod.mk.inj h
      exact ⟨rfl, Nat.le_refl 0, .inl rfl⟩
  | cons c s =>
      by_cases hq : isQuote c = true
      · have hquoted : w.quoted = if c = '\'' then .single else .double := by
          have hfst := congrArg (fun r => r.1.quoted) h
          simp only [scanWord, scanWith, hq, if_true] at hfst
          exact hfst.symm
        rw [hw] at hquoted
        split at hquoted <;> contradiction
      · have hq' : isQuote c = false := by simpa using hq
        have hscan := h
        rw [scanWord, scanWith_unquoted _ _ hq'] at hscan
        obtain ⟨rfl, rfl⟩ := Prod.mk.inj hscan
        exact ⟨rfl, wordLen_le wordStop 0 (c :: s), wordLen_stops wordStop 0 (c :: s)⟩

/-- Where the command word stands. -/
theorem commandWord_scan {line : Text} {i len : Nat} {w : Word}
    (h : commandWord line = some (i, w, len)) :
    i < (firstSegment line).length ∧ scanWord ((firstSegment line).drop i) = (w, len) := by
  obtain ⟨-, hlt, htoken⟩ := placedFrom_token (mem_of_firstWord h)
  rw [Nat.sub_zero] at hlt htoken
  exact ⟨hlt, scanWord_of_nextToken htoken⟩

/-! ## The first segment -/

/-- A text that begins with no blank is trimmed at its end. -/
theorem trim_append_blanks {t : Text} (h : ∀ c ∈ t.head?, isspace c = false) :
    ∃ blanks, (∀ c ∈ blanks, isspace c = true) ∧ t = trim isspace t ++ blanks := by
  refine ⟨(t.reverse.takeWhile isspace).reverse, fun c hc => ?_, ?_⟩
  · exact List.mem_takeWhile_imp (List.mem_reverse.mp hc)
  · have hdrop : t.dropWhile isspace = t := by
      cases t with
      | nil => rfl
      | cons c t => exact List.dropWhile_cons_of_neg (by simp [h c rfl])
    rw [trim, hdrop, ← List.reverse_append, List.takeWhile_append_dropWhile, List.reverse_reverse]

/-- The connector that is found stands where it is said to. -/
theorem connectorAt_of_findFrom {p2 p1 q : Option Char} {skip n : Nat} {s : Text}
    {conn : Connector} (h : findFrom p2 p1 q skip s = some (n, conn)) :
    ∃ p2' p1', connectorAt p2' p1' (s.drop n) = some conn := by
  induction s generalizing p2 p1 q skip n with
  | nil => cases q <;> cases skip <;> simp [findFrom] at h
  | cons c s ih =>
      have hlater : ∀ {p2 p1 q : Option Char} {skip : Nat},
          (findFrom p2 p1 q skip s).map (Prod.map (· + 1) id) = some (n, conn) →
          ∃ p2' p1', connectorAt p2' p1' ((c :: s).drop n) = some conn := by
        intro p2 p1 q skip hmap
        obtain ⟨⟨m, conn'⟩, hfind, hpair⟩ := Option.map_eq_some_iff.mp hmap
        obtain ⟨rfl, rfl⟩ := Prod.mk.inj hpair
        exact ih hfind
      cases skip with
      | succ skip => exact hlater h
      | zero =>
          cases q with
          | some q => exact hlater h
          | none =>
              rw [findFrom] at h
              split_ifs at h
              · exact hlater h
              · exact hlater h
              · split at h
                next conn' hconn =>
                  obtain ⟨rfl, rfl⟩ := Prod.mk.inj (Option.some.inj h)
                  exact ⟨p2, p1, hconn⟩
                · exact hlater h

/-- What may follow the first segment and the blanks behind it. -/
theorem head_of_connectorAt {p2 p1 : Option Char} {s : Text} {conn : Connector}
    (h : connectorAt p2 p1 s = some conn) : ∃ c r, s = c :: r ∧ (c = '&' ∨ c = '|' ∨ c = ';') := by
  unfold connectorAt at h
  split at h
  · exact ⟨_, _, rfl, .inl rfl⟩
  · exact ⟨_, _, rfl, .inr (.inl rfl)⟩
  · exact ⟨_, _, rfl, .inr (.inr rfl)⟩
  · exact ⟨_, _, rfl, .inr (.inr rfl)⟩
  · simp at h
  · exact ⟨_, _, rfl, .inl rfl⟩
  · simp at h

/-- The line, cut at its first connector. -/
theorem firstSegment_spec (line : Text) :
    ∃ blanks rest, line.dropWhile isspace = firstSegment line ++ (blanks ++ rest) ∧
      (∀ c ∈ blanks, isspace c = true) ∧
      (rest = [] ∨ ∃ c r, rest = c :: r ∧ (c = '&' ∨ c = '|' ∨ c = ';')) := by
  have hafter : (skipWsPos ⟨[], line⟩).after = line.dropWhile isspace := skipWsFrom_after [] line
  rw [firstSegment]
  simp only [hafter]
  generalize hn : ((findListConnector (skipWsPos ⟨[], line⟩)).map Prod.fst).getD
    (line.dropWhile isspace).length = n
  have hhead : ∀ c ∈ ((line.dropWhile isspace).take n).head?, isspace c = false := by
    intro c hc
    cases hline : line.dropWhile isspace with
    | nil => simp [hline] at hc
    | cons d s =>
        have hd := List.head_dropWhile_not isspace (l := line) (by simp [hline])
        simp only [hline, List.head_cons] at hd
        cases n with
        | zero => simp [hline] at hc
        | succ n =>
            obtain rfl : d = c := by simpa [hline] using hc
            exact hd
  obtain ⟨blanks, hblanks, hsplit⟩ := trim_append_blanks hhead
  refine ⟨blanks, (line.dropWhile isspace).drop n, ?_, hblanks, ?_⟩
  · rw [← List.append_assoc, ← hsplit, List.take_append_drop]
  · cases hfind : findListConnector (skipWsPos ⟨[], line⟩) with
    | none =>
        rw [hfind] at hn
        refine .inl (List.drop_eq_nil_of_le ?_)
        rw [← hn]
        exact Nat.le_refl _
    | some r =>
        obtain ⟨m, conn⟩ := r
        rw [hfind] at hn
        obtain rfl : m = n := hn
        obtain ⟨p2, p1, hconn⟩ := connectorAt_of_findFrom hfind
        rw [hafter] at hconn
        exact .inr (head_of_connectorAt hconn)

/-! ## Unquoted command words -/

theorem lineStop_of_wordStop {s : Text} (h : wordStop s = true) : lineStop s = true := by
  cases s with
  | nil => rfl
  | cons c s =>
      simp only [wordStop, Bool.or_eq_true, Bool.and_eq_true] at h
      simp only [lineStop, Bool.or_eq_true]
      tauto

/-- **What stands at the place** of an unquoted command word, and behind it. -/
theorem commandWord_text {line : Text} {i len : Nat} {w : Word}
    (h : commandWord line = some (i, w, len)) (hw : w.quoted = .unquoted) :
    w.text = ((line.dropWhile isspace).drop i).take len ∧
      lineStop ((line.dropWhile isspace).drop (i + len)) = true := by
  obtain ⟨hlt, hscan⟩ := commandWord_scan h
  obtain ⟨htext, hle, hstop⟩ := scanWord_unquoted hscan hw
  obtain ⟨blanks, rest, hline, hblanks, hrest⟩ := firstSegment_spec line
  rw [hline, List.drop_append_of_le_length (Nat.le_of_lt hlt),
    List.take_append_of_le_length hle, ← List.drop_drop,
    List.drop_append_of_le_length (Nat.le_of_lt hlt), List.drop_append_of_le_length hle]
  refine ⟨htext, ?_⟩
  cases hafter : ((firstSegment line).drop i).drop len with
  | nil =>
      cases blanks with
      | nil => rcases hrest with rfl | ⟨c, r, rfl, rfl | rfl | rfl⟩ <;> simp [lineStop]
      | cons c blanks =>
          have hc := hblanks c List.mem_cons_self
          simp [lineStop, hc]
  | cons c t =>
      have hend := lineStop_of_wordStop (hstop.resolve_left (by simp [hafter]))
      rw [hafter] at hend
      exact hend

/-- The first connector is not before the end of a word of plain bytes. -/
theorem findListConnector_plain {b word r : Text} (hword : ∀ c ∈ word, isWordChar c = true) :
    ∃ p : Option Char × Option Char, (word ≠ [] → p.2 = word.getLast?) ∧
      findListConnector ⟨b, word ++ r⟩ = (scanAt p r).map (shift word.length) := by
  refine ⟨lookBehind (b.tail.head?, b.head?) word, fun hne => ?_, ?_⟩
  · obtain ⟨t, c, rfl⟩ := (List.eq_nil_or_concat' word).resolve_left hne
    rw [lookBehind_concat, List.getLast?_concat]
  · rw [findListConnector_eq]
    exact passes_wordChars word r hword _

/-- `&` is a connector, but before `>` and in `2>&1`. -/
theorem scanAt_amp {p : Option Char × Option Char} {r : Text} (hp : p.2 ≠ some '>')
    (hr : r.head? ≠ some '>') : ((scanAt p ('&' :: r)).map Prod.fst) = some 0 := by
  have hconn : ∃ conn, connectorAt p.1 p.2 ('&' :: r) = some conn := by
    unfold connectorAt
    split <;> simp_all
  obtain ⟨conn, hconn⟩ := hconn
  simp [findFrom, isQuote, hconn]

theorem scanAt_semi (p : Option Char × Option Char) (r : Text) :
    ((scanAt p (';' :: r)).map Prod.fst) = some 0 := by
  have hconn : ∃ conn, connectorAt p.1 p.2 (';' :: r) = some conn := by
    unfold connectorAt
    split <;> simp_all
  obtain ⟨conn, hconn⟩ := hconn
  simp [findFrom, isQuote, hconn]

/-- What the segment has behind the word does not lengthen it. -/
theorem wordLen_behind {p : Option Char × Option Char} {r r' blanks : Text}
    (hp : p.2 ≠ some '>') (hstop : lineStop r = true)
    (hblanks : ∀ c ∈ blanks, isspace c = true)
    (hsplit : r.take (((scanAt p r).map Prod.fst).getD r.length) = r' ++ blanks) :
    wordLen wordStop 0 r' = 0 := by
  cases r' with
  | nil => rfl
  | cons c r' =>
      cases r with
      | nil => simp at hsplit
      | cons d r =>
          have hpos : ((scanAt p (d :: r)).map Prod.fst).getD (d :: r).length ≠ 0 := by
            intro hzero
            rw [hzero] at hsplit
            simp at hsplit
          obtain rfl : d = c := by
            obtain ⟨n, hn⟩ := Nat.exists_eq_succ_of_ne_zero hpos
            rw [hn, List.take_succ_cons, List.cons_append] at hsplit
            exact (List.cons.inj hsplit).1
          have hends : wordStop (d :: r') = true := by
            simp only [lineStop, Bool.or_eq_true, beq_iff_eq] at hstop
            rcases hstop with ((((hd | rfl) | rfl) | rfl) | rfl) | rfl
            · simp [wordStop, hd]
            · rfl
            · rfl
            · rfl
            · by_cases hgt : r.head? = some '>'
              · -- The `>` of `&>` is in the segment.
                obtain ⟨r, rfl⟩ : ∃ s, r = '>' :: s := by
                  cases r with
                  | nil => simp at hgt
                  | cons e r => exact ⟨r, by rw [Option.some.inj hgt]⟩
                have hlen : ∃ n, ((scanAt p ('&' :: '>' :: r)).map Prod.fst).getD
                    ('&' :: '>' :: r).length = n + 2 := by
                  have hpass : scanAt p ('&' :: '>' :: r) = _ := passes_ampgt r p
                  rw [hpass]
                  cases scanAt (lookBehind p "&>".toList) r with
                  | none => exact ⟨r.length, rfl⟩
                  | some found => exact ⟨found.1, rfl⟩
                obtain ⟨n, hn⟩ := hlen
                rw [hn, List.take_succ_cons, List.take_succ_cons, List.cons_append] at hsplit
                cases r' with
                | nil =>
                    rw [List.nil_append] at hsplit
                    have hspace := hblanks '>' (by rw [← (List.cons.inj hsplit).2]; simp)
                    exact absurd hspace (by decide)
                | cons e r' =>
                    obtain rfl : '>' = e := (List.cons.inj (List.cons.inj hsplit).2).1
                    rfl
              · rw [scanAt_amp hp hgt] at hpos
                exact absurd rfl hpos
            · rw [scanAt_semi] at hpos
              exact absurd rfl hpos
          simp [wordLen, hends]

theorem isWordChar_ne_gt {word : Text} (hword : ∀ c ∈ word, isWordChar c = true) :
    word.getLast? ≠ some '>' := by
  intro hlast
  exact absurd (hword '>' (List.mem_of_getLast? hlast)) (by decide)

/-- The first segment begins with the word, and what is behind it does not lengthen it. -/
theorem firstSegment_plain {line word r : Text} (hline : line.dropWhile isspace = word ++ r)
    (hne : word ≠ []) (hword : ∀ c ∈ word, isWordChar c = true) (hstop : lineStop r = true) :
    ∃ r', firstSegment line = word ++ r' ∧ wordLen wordStop 0 r' = 0 := by
  have hafter : (skipWsPos ⟨[], line⟩).after = word ++ r := (skipWsFrom_after [] line).trans hline
  rw [firstSegment]
  generalize skipWsPos ⟨[], line⟩ = c at hafter
  obtain ⟨b, after⟩ := c
  obtain rfl : after = word ++ r := hafter
  obtain ⟨p, hlast, hfind⟩ : ∃ p : Option Char × Option Char, _ ∧ findListConnector ⟨b, word ++ r⟩ = _ :=
    findListConnector_plain hword
  have hp : p.2 ≠ some '>' := by
    rw [hlast hne]
    exact isWordChar_ne_gt hword
  have hlen : ((findListConnector ⟨b, word ++ r⟩).map Prod.fst).getD (word ++ r).length =
      word.length + ((scanAt p r).map Prod.fst).getD r.length := by
    rw [hfind]
    cases scanAt p r with
    | none => simp
    | some found => simp [shift, Nat.add_comm]
  simp only [hlen, List.take_append, Nat.add_sub_cancel_left]
  rw [List.take_of_length_le (Nat.le_add_right _ _)]
  generalize hcut : r.take (((scanAt p r).map Prod.fst).getD r.length) = t
  have hspace : ∀ c ∈ word, isspace c = false := fun c hc => ((isWordChar_iff c).mp (hword c hc)).1
  have hhead : ∀ c ∈ (word ++ t).head?, isspace c = false := by
    intro c hc
    obtain ⟨d, s, rfl⟩ := List.exists_cons_of_ne_nil hne
    obtain rfl : d = c := by simpa using hc
    exact hspace d List.mem_cons_self
  obtain ⟨blanks, hblanks, hsplit⟩ := trim_append_blanks hhead
  rcases List.append_eq_append_iff.mp hsplit with ⟨r', hseg, ht⟩ | ⟨u, hu, hrest⟩
  · refine ⟨r', hseg, wordLen_behind hp hstop hblanks (hcut.trans ht)⟩
  · have hnil : u = [] := by
      cases u with
      | nil => rfl
      | cons c u =>
          have hc := hblanks c (by rw [hrest]; simp)
          rw [hspace c (by rw [hu]; simp)] at hc
          contradiction
    subst hnil
    rw [List.append_nil] at hu
    exact ⟨[], by rw [List.append_nil, ← hu], rfl⟩

/-- **A word of plain bytes** at the start of the line, which a line ends, is the command
word. -/
theorem commandWord_plain {line word r : Text} (hline : line.dropWhile isspace = word ++ r)
    (hne : word ≠ []) (hword : ∀ c ∈ word, isWordChar c = true) (htwo : word.head? ≠ some '2')
    (hstop : lineStop r = true) : commandWord line = some (0, ⟨word, .unquoted⟩, word.length) := by
  obtain ⟨r', hseg, hlen⟩ := firstSegment_plain hline hne hword hstop
  have hscan : scanWord (word ++ r') = (⟨word, .unquoted⟩, word.length) := by
    refine scanWith_plain wordStop word r' hne (fun c hc => ?_) (fun c hc => ?_) hlen
    · exact ((isWordChar_iff c).mp (hword c hc)).2.1
    · exact ⟨((isWordChar_iff c).mp (hword c hc)).2.2.1,
        fun u => wordStop_stopsAtBlank.wordChar c u (hword c hc)⟩
  obtain ⟨c, s, rfl⟩ := List.exists_cons_of_ne_nil hne
  obtain ⟨hsp, hq, -, hsc, hp, ha, hl, hg, -⟩ := (isWordChar_iff c).mp (hword c List.mem_cons_self)
  have hnext : nextToken (c :: (s ++ r')) = some (.word ⟨c :: s, .unquoted⟩, (c :: s).length) := by
    rw [nextToken_of_not_op (s ++ r') ⟨hp, hl, hg, ha⟩ fun hc => absurd (by rw [hc]; rfl) htwo,
      ← List.cons_append, hscan]
  rw [commandWord, hseg, List.cons_append, placedFrom, if_neg (by simp [hsp]), hnext]
  rfl

end Petrush.Verified.CommandWord
