import Petrush.Verified.Cursors

/-!
# What the parser accepts

A tree that is read is one the dispatcher expects: no list that is needed is empty, no stage
is without a word, the redirections of a stage do not contradict one another, `&&` and `||`
stand behind an item of the foreground and before another one, `else` is the last arm, and
names are names.  It has no more parts than the text has bytes.

## Main results

* `parsed_sound` — for every text that is accepted.
-/

namespace Petrush.Verified.Accepted

open Petrush.Lib.CText
open Petrush.Mid.Ast
open Petrush.Mid.Lexer
open Petrush.Mid.Parser
open Petrush.Verified.Cursors

/-! ## Sound trees -/

/-- The redirections of a stage, whose documents have not been read yet. -/
structure SoundRedirs (cmd : Cmd) : Prop where
  oneInput : cmd.redirIn ≠ none → cmd.hereDelim = none
  noDocument : cmd.hereDelim = none →
    cmd.hereQuoted = false ∧ cmd.hereStrip = false ∧ cmd.hereSkipDelims = []
  unread : cmd.hereBody = none ∧ cmd.hereFeedI = 0
  output : cmd.redirOut = none → cmd.redirAppend = false
  errors : cmd.redirErr = none → cmd.redirErrAppend = false
  oneError : cmd.redirErrToOut = true → cmd.redirErr = none

/-- A stage. -/
structure SoundCmd (cmd : Cmd) : Prop extends SoundRedirs cmd where
  named : cmd.argv ≠ []

/-- The name of a function. -/
def SoundName (name : Text) : Prop :=
  ∃ c rest, name = c :: rest ∧ isFnNameStart c = true ∧ rest.all isFnNameChar = true

mutual

def SoundKind : ItemKind → Prop
  | .pipeline pl => pl.cmds ≠ [] ∧ ∀ cmd ∈ pl.cmds, SoundCmd cmd
  | .ifc arms => (∃ arm rest, arms = arm :: rest ∧ arm.isElse = false) ∧ SoundArms arms
  | .wh cond body => cond ≠ [] ∧ SoundList .always cond ∧ SoundList .always body
  | .fr name words body => name ≠ [] ∧ (∀ w ∈ words, w ≠ []) ∧ SoundList .always body
  | .fn name body => SoundName name ∧ SoundList .always body
  | .cs word arms => word ≠ [] ∧ SoundCases arms
  | .db argv => ∀ w ∈ argv, w.text ≠ []

/-- The conditions of arms, which `else` does not have. -/
def SoundArm : IfArm → Prop
  | ⟨cond, body, isElse⟩ =>
      (cond = [] ↔ isElse = true) ∧ SoundList .always cond ∧ SoundList .always body

/-- Nothing follows `else`. -/
def SoundArms : List IfArm → Prop
  | [] => True
  | arm :: arms => SoundArm arm ∧ (arm.isElse = true → arms = []) ∧ SoundArms arms

def SoundCase : CaseArm → Prop
  | ⟨patterns, body⟩ => patterns ≠ [] ∧ (∀ p ∈ patterns, p ≠ []) ∧ SoundList .always body

def SoundCases : List CaseArm → Prop
  | [] => True
  | arm :: arms => SoundCase arm ∧ SoundCases arms

def SoundItem : RunCond → Item → Prop
  | next, ⟨kind, cond, _⟩ => cond = next ∧ SoundKind kind

/-- A list whose first item has the condition; one in the background has nothing that waits
for its status. -/
def SoundList : RunCond → List Item → Prop
  | next, [] => next = .always
  | next, it :: items => SoundItem next it ∧
      ∃ next', (it.background = true → next' = .always) ∧ SoundList next' items

end

/-! ## Sizes -/

def stageSize (pl : Pipeline) : Nat := (pl.cmds.map fun cmd => cmd.argv.length).sum

mutual

/-- The words, and the compound commands. -/
def kindSize : ItemKind → Nat
  | .pipeline pl => stageSize pl
  | .ifc arms => armsSize arms
  | .wh cond body => listSize cond + listSize body + 1
  | .fr _ words body => words.length + listSize body + 2
  | .fn _ body => listSize body + 1
  | .cs _ arms => casesSize arms + 2
  | .db argv => argv.length + 1

def armSize : IfArm → Nat
  | ⟨cond, body, _⟩ => listSize cond + listSize body + 1

def armsSize : List IfArm → Nat
  | [] => 0
  | arm :: arms => armSize arm + armsSize arms

def caseSize : CaseArm → Nat
  | ⟨patterns, body⟩ => patterns.length + listSize body

def casesSize : List CaseArm → Nat
  | [] => 0
  | arm :: arms => caseSize arm + casesSize arms

def itemSize : Item → Nat
  | ⟨kind, _, _⟩ => kindSize kind

def listSize : List Item → Nat
  | [] => 0
  | it :: items => itemSize it + listSize items

end

/-! ## Stages -/

section Stages

theorem SoundRedirs.start : SoundRedirs {} := by
  constructor <;> simp

theorem SoundRedirs.word {cmd : Cmd} (h : SoundRedirs cmd) (w : Word) :
    SoundRedirs { cmd with argv := cmd.argv ++ [w] } :=
  ⟨h.oneInput, h.noDocument, h.unread, h.output, h.errors, h.oneError⟩

theorem SoundRedirs.errToOut {cmd : Cmd} (h : SoundRedirs cmd) : SoundRedirs (applyErrToOut cmd) :=
  ⟨h.oneInput, h.noDocument, h.unread, h.output, fun _ => rfl, fun _ => rfl⟩

theorem SoundRedirs.redir {cmd cmd' : Cmd} (h : SoundRedirs cmd) {k : TokKind} {w : Word}
    (happly : applyRedir cmd k w = some cmd') : SoundRedirs cmd' := by
  cases k <;> first | contradiction | obtain rfl := Option.some.inj happly
  case lt =>
    exact ⟨fun _ => rfl, fun _ => ⟨rfl, rfl, rfl⟩, ⟨rfl, rfl⟩, h.output, h.errors, h.oneError⟩
  case dless | dlessdash =>
    exact ⟨nofun, nofun, ⟨rfl, rfl⟩, h.output, h.errors, h.oneError⟩
  case gt | gtgt => exact ⟨h.oneInput, h.noDocument, h.unread, nofun, h.errors, h.oneError⟩
  case errgt | errgtgt => exact ⟨h.oneInput, h.noDocument, h.unread, h.output, nofun, nofun⟩
  case ampgt => exact ⟨h.oneInput, h.noDocument, h.unread, nofun, fun _ => rfl, fun _ => rfl⟩

theorem applyRedir_argv {cmd cmd' : Cmd} {k : TokKind} {w : Word}
    (h : applyRedir cmd k w = some cmd') : cmd'.argv = cmd.argv := by
  cases k <;> first | contradiction | (obtain rfl := Option.some.inj h; rfl)

/-- The tokens of a stage are its words, and its operators with theirs. -/
theorem buildStageFrom_sound {toks : List Token} {cmd cmd' : Cmd} (h : SoundRedirs cmd)
    (hbuilt : buildStageFrom cmd toks = some cmd') :
    SoundRedirs cmd' ∧ cmd'.argv.length ≤ cmd.argv.length + toks.length := by
  induction cmd, toks using buildStageFrom.induct with
  | case1 cmd =>
      obtain rfl := Option.some.inj hbuilt
      exact ⟨h, Nat.le_refl _⟩
  | case2 cmd w toks ih =>
      have hrest := ih (h.word w) hbuilt
      refine ⟨hrest.1, ?_⟩
      have hlen := hrest.2
      simp only [List.length_append, List.length_cons, List.length_nil] at hlen ⊢
      omega
  | case3 cmd toks ih =>
      have hrest := ih h.errToOut hbuilt
      exact ⟨hrest.1, Nat.le_trans hrest.2 (Nat.add_le_add_left (Nat.le_succ _) _)⟩
  | case4 cmd k w toks hk hnone =>
      rw [buildStageFrom, hnone] at hbuilt
      · contradiction
      · exact hk
  | case5 cmd k w toks hk next hnext ih =>
      rw [buildStageFrom, hnext] at hbuilt
      · have hrest := ih (h.redir hnext) hbuilt
        rw [applyRedir_argv hnext] at hrest
        exact ⟨hrest.1, Nat.le_trans hrest.2 (Nat.add_le_add_left (Nat.le_add_right _ 2) _)⟩
      · exact hk
  | case6 cmd k toks hk hword =>
      rw [buildStageFrom] at hbuilt
      · contradiction
      · exact hk
      · exact hword

theorem buildStage_sound {toks : List Token} {cmd : Cmd} (h : buildStage toks = some cmd) :
    SoundCmd cmd ∧ cmd.argv.length ≤ toks.length := by
  unfold buildStage at h
  split at h
  · contradiction
  next built hbuilt =>
    split at h
    · contradiction
    next hwords =>
      obtain rfl := Option.some.inj h
      have hsound := buildStageFrom_sound .start hbuilt
      rw [List.length_nil, Nat.zero_add] at hsound
      exact ⟨⟨hsound.1, hwords⟩, hsound.2⟩

theorem length_splitOnP {α : Type} (p : α → Bool) (xs : List α) :
    ((xs.splitOnP p).map List.length).sum ≤ xs.length := by
  induction xs with
  | nil => exact Nat.le_refl _
  | cons x xs ih =>
      rw [List.splitOnP_cons_eq_if_modifyHead]
      split
      · exact Nat.le_succ_of_le (by simpa using ih)
      · cases hsplit : xs.splitOnP p with
        | nil => exact absurd hsplit (List.splitOnP_ne_nil p xs)
        | cons chunk chunks =>
            rw [hsplit] at ih
            simp only [List.modifyHead_cons, List.map_cons, List.sum_cons, List.length_cons] at ih ⊢
            omega

theorem mapM_buildStage_sound {chunks : List (List Token)} {cmds : List Cmd}
    (h : chunks.mapM buildStage = some cmds) :
    cmds.length = chunks.length ∧ (∀ cmd ∈ cmds, SoundCmd cmd) ∧
      (cmds.map fun cmd => cmd.argv.length).sum ≤ (chunks.map List.length).sum := by
  induction chunks generalizing cmds with
  | nil =>
      obtain rfl := Option.some.inj h
      exact ⟨rfl, nofun, Nat.le_refl _⟩
  | cons chunk chunks ih =>
      rw [List.mapM_cons] at h
      obtain ⟨cmd, hcmd, h⟩ := Option.bind_eq_some_iff.mp h
      obtain ⟨rest, hrest, h⟩ := Option.bind_eq_some_iff.mp h
      obtain rfl := Option.some.inj h
      obtain ⟨hlen, hsound, hsize⟩ := ih hrest
      have hstage := buildStage_sound hcmd
      refine ⟨congrArg (· + 1) hlen, List.forall_mem_cons.mpr ⟨hstage.1, hsound⟩, ?_⟩
      simp only [List.map_cons, List.sum_cons]
      exact Nat.add_le_add hstage.2 hsize

theorem pipelineOf_sound {toks : List Token} (hne : toks ≠ []) {pl : Pipeline}
    (h : pipelineOf toks = some pl) :
    SoundKind (.pipeline pl) ∧ stageSize pl ≤ toks.length := by
  rw [pipelineOf, if_neg hne] at h
  obtain ⟨cmds, hcmds, rfl⟩ := Option.map_eq_some_iff.mp h
  obtain ⟨hlen, hsound, hsize⟩ := mapM_buildStage_sound hcmds
  refine ⟨⟨?_, hsound⟩, Nat.le_trans hsize (length_splitOnP _ toks)⟩
  rintro rfl
  exact List.splitOnP_ne_nil _ toks (List.length_eq_zero_iff.mp hlen.symm)

/-! ### Tokens -/

theorem tokenizeFrom_length {s : Text} : ∀ {skip : Nat} {toks : List Token},
    tokenizeFrom skip s = some toks → toks.length ≤ s.length := by
  induction s with
  | nil =>
      intro skip toks h
      cases skip <;> exact Nat.le_of_eq (congrArg List.length (Option.some.inj h).symm)
  | cons c s ih =>
      intro skip toks h
      cases skip with
      | succ skip => exact Nat.le_succ_of_le (ih h)
      | zero =>
          rw [tokenizeFrom] at h
          split at h
          · exact Nat.le_succ_of_le (ih h)
          · split at h
            · contradiction
            next tok len _ =>
              obtain ⟨rest, hrest, rfl⟩ := Option.map_eq_some_iff.mp h
              exact Nat.succ_le_succ (ih hrest)

theorem tokenize_ne_nil {c : Char} {s : Text} (hc : isspace c = false) {toks : List Token}
    (h : tokenize (c :: s) = some toks) : toks ≠ [] := by
  rw [tokenize, tokenizeFrom, if_neg (by simp [hc])] at h
  split at h
  · contradiction
  · obtain ⟨rest, -, rfl⟩ := Option.map_eq_some_iff.mp h
    exact List.cons_ne_nil _ _

theorem parsePipeline_sound {s : Text} (hs : trim isspace s ≠ []) {pl : Pipeline}
    (h : parsePipeline (trim isspace s) = some pl) :
    SoundKind (.pipeline pl) ∧ stageSize pl ≤ s.length := by
  obtain ⟨toks, htoks, hpl⟩ := Option.bind_eq_some_iff.mp h
  obtain ⟨c, rest, hrest⟩ := List.exists_cons_of_ne_nil hs
  have hlen : (trim isspace s).length ≤ s.length := by
    have hlast := List.length_dropWhile_le isspace (s.dropWhile isspace).reverse
    rw [List.length_reverse] at hlast
    rw [trim, List.length_reverse]
    exact Nat.le_trans hlast (List.length_dropWhile_le isspace s)
  have hc : isspace c = false := trim_head c (by rw [hrest]; rfl)
  have hsize := tokenizeFrom_length htoks
  rw [hrest] at htoks
  have hsound := pipelineOf_sound (tokenize_ne_nil hc htoks) hpl
  exact ⟨hsound.1, Nat.le_trans hsound.2 (Nat.le_trans hsize hlen)⟩

end Stages

/-! ## What is read -/

/-- What is read has the property, and its size and what is left make no more than `k`. -/
def Reads {α : Type} (P : α → Prop) (size : α → Nat) (k : Nat) (o : Option (α × Cursor)) : Prop :=
  ∀ a c, o = some (a, c) → P a ∧ size a + left c ≤ k

section Reads

variable {α β : Type} {P : α → Prop} {Q : β → Prop} {v : α → Nat} {w : β → Nat} {j k : Nat}
  {o : Option (α × Cursor)} {c : Cursor}

theorem Reads.fails : Reads P v k none := nofun

theorem Reads.gives {a : α} (h : P a) (hsize : v a + left c ≤ k) : Reads P v k (some (a, c)) := by
  intro b d hd
  obtain ⟨rfl, rfl⟩ := Prod.mk.inj (Option.some.inj hd)
  exact ⟨h, hsize⟩

/-- A list that ends at once. -/
theorem Reads.nothing {p : α → Prop} (h : left c ≤ k) :
    Reads (fun xs : List α => ∀ x ∈ xs, p x) List.length k (some ([], c)) := by
  refine Reads.gives (List.forall_mem_nil _) ?_
  rw [List.length_nil, Nat.zero_add]
  exact h

theorem Reads.bind {f : α × Cursor → Option (β × Cursor)} (h : Reads P v j o)
    (hf : ∀ a d, P a → v a + left d ≤ j → Reads Q w k (f (a, d))) : Reads Q w k (o.bind f) := by
  cases o with
  | none => exact Reads.fails
  | some p =>
      have hp := h p.1 p.2 rfl
      exact hf p.1 p.2 hp.1 hp.2

/-- Behind something that is passed over. -/
theorem Reads.behind {i : Nat} {r : Option Cursor} {f : Cursor → Option (β × Cursor)}
    (h : ∀ d, r = some d → Moved i c d) (hf : ∀ d, left d + i ≤ left c → Reads Q w k (f d)) :
    Reads Q w k (r.bind f) := by
  cases r with
  | none => exact Reads.fails
  | some d => exact hf d (h d rfl).length

theorem Reads.ite {p : Prop} [Decidable p] {o' : Option (α × Cursor)} (h : p → Reads P v k o)
    (h' : ¬ p → Reads P v k o') : Reads P v k (if p then o else o') := by
  split
  next hp => exact h hp
  next hp => exact h' hp

theorem Reads.map {f : α → β} (h : Reads P v j o) (hP : ∀ a, P a → Q (f a))
    (hsize : ∀ a, w (f a) + j ≤ v a + k) : Reads Q w k (o.map (Prod.map f id)) := by
  cases o with
  | none => exact Reads.fails
  | some p =>
      have hp := h p.1 p.2 rfl
      refine Reads.gives (hP p.1 hp.1) ?_
      have hf := hsize p.1
      have hleft := hp.2
      show w (f p.1) + left p.2 ≤ k
      omega

/-- A word that ends the compound. -/
theorem reads_end {kw : Text} (hkw : kw ≠ []) {a : α} (h : P a) (hsize : v a + left c ≤ k) :
    Reads P v k ((matchKwAt kw c).bind fun d => some (a, d)) := by
  refine Reads.behind (fun _ hread => moved_matchKwAt hkw hread) fun d hd => ?_
  exact Reads.gives h (by omega)

end Reads

/-! ## Words -/

section Words

/-- Texts that are not empty. -/
def Filled (words : List Text) : Prop := ∀ t ∈ words, t ≠ []

theorem left_skipWsPos (c : Cursor) : left (skipWsPos c) ≤ left c := (moved_skipWsPos c).notLonger

theorem forWords_reads (n : Nat) : ∀ c : Cursor,
    Reads Filled List.length (left c) (forWords n c) := by
  induction n with
  | zero => exact fun c => Reads.fails
  | succ n ih =>
      intro c
      have hskip := left_skipWsPos c
      rw [forWords]
      dsimp only
      split
      next => exact Reads.fails
      next =>
        have hone := (moved_advance 1 (skipWsPos c)).notLonger
        exact Reads.nothing (by omega)
      next =>
        refine Reads.ite (fun _ => ?_) fun _ => Reads.ite (fun _ => Reads.fails) fun hne => ?_
        · exact Reads.nothing (by omega)
        · have hword : left ((skipWsPos c).advance (scanForWord (skipWsPos c).after).2) + 1 ≤
              left (skipWsPos c) := (moved_scanWith hne).length
          refine Reads.map (ih _) (fun words h => List.forall_mem_cons.mpr ⟨hne, h⟩) fun words => ?_
          rw [List.length_cons]
          omega

theorem nonEmptyWord_reads {stop : Text → Bool} (c : Cursor) :
    Reads (fun w : Word => w.text ≠ []) (fun _ => 1) (left c) (nonEmptyWord (scanWith stop) c) := by
  intro w d h
  refine ⟨?_, ?_⟩
  · unfold nonEmptyWord at h
    dsimp only at h
    split at h
    next => contradiction
    next hne =>
      obtain ⟨rfl, -⟩ := Prod.mk.inj (Option.some.inj h)
      exact hne
  · have hread : left d + 1 ≤ left c := (moved_nonEmptyWord h).length
    dsimp only
    omega

theorem casePatterns_reads (n : Nat) : ∀ c : Cursor,
    Reads (fun pats => pats ≠ [] ∧ Filled pats) List.length (left c) (casePatterns n c) := by
  induction n with
  | zero => exact fun c => Reads.fails
  | succ n ih =>
      intro c
      have hskip := left_skipWsPos c
      have hword : Reads (fun w : Word => w.text ≠ []) (fun _ => 1) (left (skipWsPos c))
          (nonEmptyWord scanCasePattern (skipWsPos c)) := nonEmptyWord_reads (skipWsPos c)
      rw [casePatterns]
      cases hpat : nonEmptyWord scanCasePattern (skipWsPos c) with
      | none => exact Reads.fails
      | some p =>
          obtain ⟨hne, hlen⟩ := hword p.1 p.2 hpat
          dsimp only at hlen
          have hafter := left_skipWsPos p.2
          have hone := (moved_advance 1 (skipWsPos p.2)).notLonger
          dsimp only
          split
          next =>
            refine Reads.map (ih _) (fun pats h => ⟨List.cons_ne_nil _ _, ?_⟩) fun pats => ?_
            · exact List.forall_mem_cons.mpr ⟨hne, h.2⟩
            · rw [List.length_cons]
              omega
          next =>
            refine Reads.gives ⟨List.cons_ne_nil _ _, List.forall_mem_singleton.mpr hne⟩ ?_
            rw [List.length_singleton]
            omega
          next => exact Reads.fails

theorem dbToken_text {c d : Cursor} {w : Word} (h : dbToken c = some (w, d)) : w.text ≠ [] := by
  have hmark : ∀ {v : Word} {e : Cursor}, v.text ≠ [] → some (v, e) = some (w, d) →
      w.text ≠ [] := by
    intro v e hv h
    obtain ⟨rfl, -⟩ := Prod.mk.inj (Option.some.inj h)
    exact hv
  have hword : ∀ {e : Cursor}, nonEmptyWord scanForWord e = some (w, d) → w.text ≠ [] :=
    fun h => (nonEmptyWord_reads _ w d h).1
  unfold dbToken at h
  split at h
  · exact hmark (by decide) h
  · exact hmark (by decide) h
  · split at h
    · exact hmark (by decide) h
    · exact hword h
  · exact hword h

theorem dbTokens_reads (n : Nat) : ∀ c : Cursor,
    Reads (fun toks : List Word => ∀ w ∈ toks, w.text ≠ []) List.length (left c)
      (dbTokens n c) := by
  induction n with
  | zero => exact fun c => Reads.fails
  | succ n ih =>
      intro c
      have hskip := left_skipWsPos c
      rw [dbTokens]
      cases hend : matchKwAt "]]".toList (skipWsPos c) with
      | some d =>
          have hread := (moved_matchKwAt (by decide) hend).notLonger
          exact Reads.nothing (by omega)
      | none =>
          cases htok : dbToken (skipWsPos c) with
          | none => exact Reads.fails
          | some p =>
              have hread : left p.2 + 1 ≤ left (skipWsPos c) := (moved_dbToken htok).length
              refine Reads.map (ih p.2) (fun toks h => ?_) fun toks => ?_
              · exact List.forall_mem_cons.mpr ⟨dbToken_text htok, h⟩
              · rw [List.length_cons]
                omega

theorem scanFnName_reads (c : Cursor) :
    Reads SoundName (fun _ => 1) (left c) (scanFnName c) := by
  intro name d h
  refine ⟨?_, ?_⟩
  · unfold scanFnName at h
    dsimp only at h
    split at h
    next => contradiction
    next x s hafter =>
      split at h
      next hstart =>
        obtain ⟨rfl, -⟩ := Prod.mk.inj (Option.some.inj h)
        exact ⟨x, _, rfl, hstart, List.all_takeWhile⟩
      next => contradiction
  · have hread : left d + 1 ≤ left c := (moved_scanFnName h).length
    dsimp only
    omega

end Words

/-! ## Compound commands -/

/-- The lists that a list parser reads are sound. -/
def SoundRec (rec : ListParser) : Prop :=
  ∀ mask requireTerm next c,
    Reads (SoundList next) listSize (left c) (rec mask requireTerm next c)

section Compounds

variable {rec : ListParser} {c : Cursor}

theorem kwThenList_reads (h : SoundRec rec) {kw : Text} (hkw : kw ≠ []) (mask : List Kw)
    (c : Cursor) :
    Reads (SoundList .always) (fun l => listSize l + 1) (left c) (kwThenList rec kw mask c) := by
  refine Reads.behind (fun _ hread => moved_matchKwAt hkw hread) fun d hd => ?_
  intro l e hl
  have hlist := h mask true .always d l e hl
  refine ⟨hlist.1, ?_⟩
  have hsize := hlist.2
  dsimp only
  omega

theorem parseWhile_reads (h : SoundRec rec) (c : Cursor) :
    Reads SoundKind kindSize (left c) (parseWhile rec c) := by
  refine Reads.bind (kwThenList_reads h (by decide) [.do_] c) fun cond d hcond hd => ?_
  refine Reads.ite (fun _ => Reads.fails) fun hne => ?_
  refine Reads.bind (kwThenList_reads h (by decide) [.done] d) fun body e hbody he => ?_
  refine reads_end (by decide) ⟨?_, hcond, hbody⟩ ?_
  · exact fun hnil => hne (by rw [hnil]; rfl)
  · rw [kindSize]
    omega

theorem parseFor_reads (h : SoundRec rec) (c : Cursor) :
    Reads SoundKind kindSize (left c) (parseFor rec c) := by
  refine Reads.behind (i := 1) (fun _ hread => moved_matchKwAt (by decide) hread) fun d hd => ?_
  have hskip := left_skipWsPos d
  refine Reads.ite (fun _ => Reads.fails) fun _ => ?_
  refine Reads.bind (nonEmptyWord_reads (skipWsPos d)) fun name e hname he => ?_
  refine Reads.behind (i := 1) (fun _ hread => moved_matchKwAt (by decide) hread) fun u hu => ?_
  refine Reads.bind (forWords_reads _ u) fun words x hwords hx => ?_
  refine Reads.bind (kwThenList_reads h (by decide) [.done] x) fun body y hbody hy => ?_
  refine reads_end (by decide) ⟨hname, hwords, hbody⟩ ?_
  rw [kindSize]
  omega

theorem caseArms_reads (h : SoundRec rec) (n : Nat) : ∀ c : Cursor,
    Reads SoundCases casesSize (left c) (caseArms rec n c) := by
  induction n with
  | zero => exact fun c => Reads.fails
  | succ n ih =>
      intro c
      have hskip := left_skipWsPos c
      rw [caseArms]
      dsimp only
      cases hend : matchKwAt "esac".toList (skipWsPos c) with
      | some d =>
          have hread := (moved_matchKwAt (by decide) hend).notLonger
          exact Reads.gives trivial (by rw [casesSize]; omega)
      | none =>
          have hparen : left (if (skipWsPos c).after.head? = some '(' then (skipWsPos c).advance 1
              else skipWsPos c) ≤ left c := by
            have hone := (moved_advance 1 (skipWsPos c)).notLonger
            split <;> omega
          dsimp only
          generalize (if (skipWsPos c).after.head? = some '(' then (skipWsPos c).advance 1
            else skipWsPos c) = d at hparen ⊢
          refine Reads.bind (casePatterns_reads _ d) fun pats e hpats he => ?_
          refine Reads.bind (h [.dsemi, .esac] true .always e) fun body u hbody hu => ?_
          have hafter := left_skipWsPos u
          have harm : ∀ arms : List CaseArm, SoundCases arms → SoundCases (⟨pats, body⟩ :: arms) :=
            fun arms harms => ⟨⟨hpats.1, hpats.2, hbody⟩, harms⟩
          have hsize : ∀ v : Cursor, left v ≤ left u → ∀ arms : List CaseArm,
              casesSize (⟨pats, body⟩ :: arms) + left v ≤ casesSize arms + left c := by
            intro v hv arms
            rw [casesSize, caseSize]
            omega
          cases hsemi : matchDsemiAt (skipWsPos u) with
          | some v =>
              have hv := (moved_matchMarkAt (by decide) hsemi).notLonger
              exact Reads.map (ih v) harm (hsize v (Nat.le_trans hv hafter))
          | none =>
              exact Reads.ite (fun _ => Reads.map (ih _) harm (hsize _ hafter)) fun _ => Reads.fails

theorem parseCase_reads (h : SoundRec rec) (c : Cursor) :
    Reads SoundKind kindSize (left c) (parseCase rec c) := by
  refine Reads.behind (i := 1) (fun _ hread => moved_matchKwAt (by decide) hread) fun d hd => ?_
  have hskip := left_skipWsPos d
  refine Reads.bind (nonEmptyWord_reads (skipWsPos d)) fun word e hword he => ?_
  refine Reads.behind (i := 1) (fun _ hread => moved_matchKwAt (by decide) hread) fun u hu => ?_
  refine Reads.bind (caseArms_reads h _ u) fun arms x harms hx => ?_
  refine Reads.gives ⟨hword, harms⟩ ?_
  rw [kindSize]
  omega

theorem parseDbracket_reads (c : Cursor) :
    Reads SoundKind kindSize (left c) (parseDbracket c) := by
  refine Reads.behind (i := 1) (fun _ hread => moved_matchKwAt (by decide) hread) fun d hd => ?_
  refine Reads.bind (dbTokens_reads _ d) fun toks e htoks he => ?_
  refine Reads.gives htoks ?_
  rw [kindSize]
  omega

theorem fnBody_reads (h : SoundRec rec) {name : Text} (hname : SoundName name) (c : Cursor) :
    Reads SoundKind kindSize (left c) (fnBody rec name c) := by
  refine Reads.behind (i := 1) (fun _ hread => moved_matchMarkAt (by decide) hread) fun d hd => ?_
  refine Reads.bind (h [.rbrace] true .always d) fun body e hbody he => ?_
  refine Reads.behind (i := 1) (fun _ hread => moved_matchMarkAt (by decide) hread) fun u hu => ?_
  refine Reads.gives ⟨hname, hbody⟩ ?_
  dsimp only at hu ⊢
  rw [kindSize]
  omega

theorem parseFn_reads (h : SoundRec rec) (fromKw : Bool) (c : Cursor) :
    Reads SoundKind kindSize (left c) (parseFn rec fromKw c) := by
  rw [parseFn_eq]
  refine Reads.behind (i := 0) (c := c) (fun d hread => ?_) fun d hd => ?_
  · split at hread
    · exact (moved_matchKwAt (by decide) hread).mono (Nat.zero_le 1)
    · obtain rfl := Option.some.inj hread
      exact Moved.refl c
  refine Reads.bind (scanFnName_reads d) fun name e hname he => ?_
  refine Reads.behind (i := 0) (fun _ hread => moved_fnParens hread) fun u hu => ?_
  intro kind x hx
  have hbody := fnBody_reads h hname u kind x hx
  dsimp only at hu
  exact ⟨hbody.1, Nat.le_trans hbody.2 (by omega)⟩

theorem parseIfArm_reads (h : SoundRec rec) {kw : Text} (hkw : kw ≠ []) (c : Cursor) :
    Reads (fun arm : IfArm => SoundArm arm ∧ arm.isElse = false) armSize (left c)
      (parseIfArm rec kw c) := by
  refine Reads.bind (kwThenList_reads h hkw [.then_] c) fun cond d hcond hd => ?_
  refine Reads.ite (fun _ => Reads.fails) fun hne => ?_
  have hthen : Reads (SoundList .always) (fun l => listSize l + 1) (left d)
      (kwThenList rec "then".toList [.elif, .else_, .fi] d) := kwThenList_reads h (by decide) _ d
  refine Reads.bind hthen fun body e hbody he => ?_
  refine Reads.gives ⟨⟨⟨?_, nofun⟩, hcond, hbody⟩, rfl⟩ ?_
  · exact fun hnil => absurd (by rw [hnil]; rfl) hne
  · rw [armSize]
    omega

theorem parseElifs_reads (h : SoundRec rec) (n : Nat) : ∀ c : Cursor,
    Reads SoundArms armsSize (left c) (parseElifs rec n c) := by
  induction n with
  | zero => exact fun c => Reads.fails
  | succ n ih =>
      intro c
      rw [parseElifs]
      refine Reads.ite (fun _ => ?_) fun _ => Reads.ite (fun _ => ?_) fun _ => ?_
      · refine Reads.bind (parseIfArm_reads h (by decide) c) fun arm d harm hd => ?_
        refine Reads.bind (ih d) fun arms e harms he => ?_
        refine Reads.gives ⟨harm.1, fun helse => absurd helse (by simp [harm.2]), harms⟩ ?_
        rw [armsSize]
        omega
      · refine Reads.bind (kwThenList_reads h (by decide) [.fi] c) fun body d hbody hd => ?_
        have harm : SoundArm ⟨[], body, true⟩ := ⟨⟨fun _ => rfl, fun _ => rfl⟩, rfl, hbody⟩
        refine reads_end (by decide) ⟨harm, fun _ => rfl, trivial⟩ ?_
        rw [armsSize, armSize, armsSize, listSize]
        omega
      · exact reads_end (by decide) trivial (by rw [armsSize]; omega)

theorem parseIf_reads (h : SoundRec rec) (c : Cursor) :
    Reads SoundKind kindSize (left c) (parseIf rec c) := by
  refine Reads.bind (parseIfArm_reads h (by decide) c) fun arm d harm hd => ?_
  refine Reads.bind (parseElifs_reads h _ d) fun arms e harms he => ?_
  refine Reads.gives ⟨⟨arm, arms, rfl, harm.2⟩, harm.1, ?_, harms⟩ ?_
  · exact fun helse => absurd helse (by simp [harm.2])
  · rw [kindSize, armsSize]
    omega

end Compounds

/-! ## Lists -/

/-- What a turn of the list loop leaves for the next one. -/
def SoundTurn (next : RunCond) (k : Nat) : ItemResult → Prop
  | .item it next' _ d => SoundItem next it ∧ (it.background = true → next' = .always) ∧
      itemSize it + left d ≤ k
  | .stop d => next = .always ∧ left d ≤ k

section Lists

variable {rec : ListParser} {c : Cursor}

/-- A connector that sends an item to the background is followed by no condition. -/
def Unconditional (conn : Connector) : Prop := conn.bg = true → conn.cond = .always

theorem connectorAt_unconditional {p2 p1 : Option Char} {s : Text} {conn : Connector}
    (h : connectorAt p2 p1 s = some conn) : Unconditional conn := by
  unfold connectorAt at h
  split at h
  case h_6 =>
    split at h
    · contradiction
    · obtain rfl := Option.some.inj h
      exact fun _ => rfl
  all_goals first | contradiction | (obtain rfl := Option.some.inj h; exact nofun)

theorem findFrom_unconditional (s : Text) : ∀ {p2 p1 q : Option Char} {skip : Nat}
    {r : Nat × Connector}, findFrom p2 p1 q skip s = some r → Unconditional r.2 := by
  induction s with
  | nil =>
      intro p2 p1 q skip r h
      rw [findFrom] at h
      contradiction
  | cons c s ih =>
      intro p2 p1 q skip r h
      have hrest : ∀ {q' : Option Char} {skip' : Nat},
          (findFrom p1 (some c) q' skip' s).map (Prod.map (· + 1) id) = some r →
            Unconditional r.2 := by
        intro q' skip' h
        obtain ⟨r', hr', rfl⟩ := Option.map_eq_some_iff.mp h
        exact (ih hr' : Unconditional r'.2)
      cases skip with
      | succ skip => exact hrest h
      | zero =>
          cases q with
          | some q => exact hrest h
          | none =>
              rw [findFrom] at h
              split at h
              · exact hrest h
              split at h
              · exact hrest h
              split at h
              next conn hconn =>
                obtain rfl := Option.some.inj h
                exact connectorAt_unconditional hconn
              next => exact hrest h

theorem soundTurn_takeConnAfter {kind : ItemKind} (hkind : SoundKind kind) (next : RunCond)
    {k : Nat} (hsize : kindSize kind + left c ≤ k) :
    SoundTurn next k (takeConnAfter kind next c) := by
  have hskip := left_skipWsPos c
  unfold takeConnAfter
  dsimp only
  split
  next conn hfound =>
    have hone := (moved_advance conn.len (skipWsPos c)).notLonger
    refine ⟨⟨rfl, hkind⟩, findFrom_unconditional _ hfound, ?_⟩
    rw [itemSize]
    omega
  next =>
    refine ⟨⟨rfl, hkind⟩, nofun, ?_⟩
    rw [itemSize]
    omega

theorem soundTurn_parsePipelineItem {next : RunCond} {r : ItemResult}
    (h : parsePipelineItem next c = some r) : SoundTurn next (left c) r := by
  unfold parsePipelineItem at h
  dsimp only at h
  generalize hlen : ((findListConnector c).map Prod.fst).getD c.after.length = len at h
  split at h
  · split at h
    next hend =>
      obtain rfl := Option.some.inj h
      exact ⟨hend.2, (moved_advance len c).notLonger⟩
    next => contradiction
  next hseg =>
    split at h
    · contradiction
    next pl hpl =>
      obtain ⟨hkind, hsize⟩ := parsePipeline_sound hseg hpl
      rw [List.length_take] at hsize
      -- the segment has been passed
      have hmoved : ∀ n, len ≤ n → stageSize pl + left (c.advance n) ≤ left c := by
        intro n hn
        have hread := (moved_advance n c).length
        unfold left
        omega
      split at h
      next conn hfound =>
        obtain rfl := Option.some.inj h
        exact ⟨⟨rfl, hkind⟩, findFrom_unconditional _ hfound, hmoved _ (Nat.le_add_right len _)⟩
      next hfound =>
        obtain rfl := Option.some.inj h
        exact ⟨⟨rfl, hkind⟩, nofun, hmoved len (Nat.le_refl len)⟩

theorem compoundAt_reads (h : SoundRec rec) {o : Option (ItemKind × Cursor)}
    (ho : compoundAt rec c = some o) : Reads SoundKind kindSize (left c) o := by
  unfold compoundAt at ho
  split at ho
  · exact Option.some.inj ho ▸ parseIf_reads h c
  split at ho
  · exact Option.some.inj ho ▸ parseWhile_reads h c
  split at ho
  · exact Option.some.inj ho ▸ parseFor_reads h c
  split at ho
  · exact Option.some.inj ho ▸ parseCase_reads h c
  split at ho
  · exact Option.some.inj ho ▸ parseDbracket_reads c
  split at ho
  · exact Option.some.inj ho ▸ parseFn_reads h true c
  split at ho
  · exact Option.some.inj ho ▸ parseFn_reads h false c
  · contradiction

theorem soundTurn_parseItem (h : SoundRec rec) {next : RunCond} {r : ItemResult}
    (hr : parseItem rec next c = some r) : SoundTurn next (left c) r := by
  unfold parseItem at hr
  split at hr
  next o ho =>
    obtain ⟨⟨kind, d⟩, hparsed, rfl⟩ := Option.map_eq_some_iff.mp hr
    obtain ⟨hkind, hsize⟩ := compoundAt_reads h ho kind d hparsed
    exact soundTurn_takeConnAfter hkind next hsize
  next => exact soundTurn_parsePipelineItem hr

theorem listAfterItem_reads (h : SoundRec rec) (mask : List Kw) (requireTerm : Bool)
    {next : RunCond} {k : Nat} {r : Option ItemResult} (hr : ∀ x, r = some x → SoundTurn next k x) :
    Reads (SoundList next) listSize k (listAfterItem rec mask requireTerm r) := by
  cases r with
  | none => exact Reads.fails
  | some x =>
      have hx := hr x rfl
      cases x with
      | stop d => exact Reads.gives hx.1 (by rw [listSize, Nat.zero_add]; exact hx.2)
      | item it next' hadConn d =>
          obtain ⟨hitem, hbg, hsize⟩ := hx
          have hskip := left_skipWsPos d
          refine Reads.ite (fun _ => ?_) fun _ => ?_
          · refine Reads.map (h mask requireTerm next' d) (fun items hitems => ?_) fun items => ?_
            · exact ⟨hitem, next', hbg, hitems⟩
            · rw [listSize]
              omega
          · have hend : Reads (SoundList next) listSize k (some ([it], skipWsPos d)) := by
              refine Reads.gives ⟨hitem, .always, fun _ => rfl, rfl⟩ ?_
              rw [listSize, listSize]
              omega
            refine Reads.ite (fun _ => ?_) fun _ => Reads.ite (fun _ => hend) fun _ => Reads.fails
            exact Reads.ite (fun _ => Reads.fails) fun _ => hend

/-- **What every list parser reads is sound.** -/
theorem parseListUntil_reads (n : Nat) : SoundRec (parseListUntil n) := by
  induction n with
  | zero => exact fun _ _ _ _ => Reads.fails
  | succ n ih =>
      intro mask requireTerm next c
      have hskip := left_skipWsPos c
      have hempty : next = .always → Reads (SoundList next) listSize (left c)
          (some ([], skipWsPos c)) :=
        fun hnext => Reads.gives hnext (by rw [listSize, Nat.zero_add]; exact hskip)
      rw [parseListUntil]
      refine Reads.ite (fun _ => ?_) fun _ => Reads.ite (fun _ => ?_) fun _ => ?_
      · exact Reads.ite (fun _ => Reads.fails) fun h => hempty (not_not.mp fun hne => h (.inr hne))
      · exact Reads.ite (fun _ => Reads.fails) fun h => hempty (not_not.mp h)
      · intro l d hl
        have hlist := listAfterItem_reads ih mask requireTerm
          (fun x hx => soundTurn_parseItem ih hx) l d hl
        exact ⟨hlist.1, Nat.le_trans hlist.2 hskip⟩

end Lists

/-- **What is accepted is sound**, whatever the text is, and has no more words and compound
commands than the text has bytes. -/
theorem parsed_sound {input : Text} {l : PList} (h : petrushParseList input = some l) :
    SoundList .always l ∧ listSize l ≤ input.length := by
  obtain ⟨⟨l, d⟩, hparsed, rfl⟩ := Option.map_eq_some_iff.mp h
  have hread := parseListUntil_reads (input.length + 1) [] false .always ⟨[], input⟩ l d hparsed
  exact ⟨hread.1, Nat.le_trans (Nat.le_add_right _ _) hread.2⟩

/-- `a && b`. -/
def andList : PList :=
  [⟨.pipeline ⟨[{ argv := [⟨"a".toList, .unquoted⟩] }]⟩, .always, false⟩,
    ⟨.pipeline ⟨[{ argv := [⟨"b".toList, .unquoted⟩] }]⟩, .and, false⟩]

theorem parsed_sound_and : SoundList .always andList ∧ listSize andList ≤ 6 :=
  parsed_sound (rfl : petrushParseList "a && b".toList = some andList)

end Petrush.Verified.Accepted
