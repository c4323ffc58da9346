import Petrush.Foundation.Process
import Petrush.Verified.Heredocs

/-!
# Several input redirections on one command

`build_stage` keeps the delimiters of all here-documents since the last `<`, but
only the tab rule of the last one.

## Main results

* `filled_eq`: the lines `fill_heredocs` takes after a command are those of the
  documents since its last `<`, all read with the last one's rule.
* `filled_eq_reference_iff`: these are the documents as written exactly when no
  `<` follows a document and all documents have one rule (or when neither
  reading ever ends).
-/

namespace Petrush.Verified.InputRedirs

open Petrush.Foundation.Process
open Petrush.Lib.CText
open Petrush.Mid.Ast
open Petrush.Mid.Heredoc
open Petrush.Mid.Lexer
open Petrush.Verified.Heredocs
open Petrush.Verified.Stages

/-! ## The operators as written -/

/-- A here-document operator: `<<-` strips tabs. -/
structure DocOp where
  strip : Bool
  delim : Text
  deriving Repr, DecidableEq

/-- An input redirection. -/
inductive InOp where
  | doc (op : DocOp)
  | path (path : Text)
  deriving Repr, DecidableEq

/-- The input redirections among the tokens of a command, in order. -/
def inputOps : List Token → List InOp
  | .op .dless :: .word w :: toks => .doc ⟨false, w.text⟩ :: inputOps toks
  | .op .dlessdash :: .word w :: toks => .doc ⟨true, w.text⟩ :: inputOps toks
  | .op .lt :: .word w :: toks => .path w.text :: inputOps toks
  | _ :: toks => inputOps toks
  | [] => []

/-- Its documents. -/
def docsOf (ops : List InOp) : List DocOp :=
  ops.filterMap fun op => match op with
    | .doc d => some d
    | .path _ => none

/-! ## What the operators ask for -/

/-- Reading one document that has `body` so far: its body and the lines after its
delimiter; `none` when the lines end before, or the body passes the limit. -/
def takeDoc (d : DocOp) : Text → List Text → Option (Text × List Text)
  | _, [] => none
  | body, line :: lines =>
      if stripTabs d.strip line = d.delim then some (body, lines)
      else if body.length + (stripTabs d.strip line).length + 1 > heredocMax then none
      else takeDoc d (body ++ stripTabs d.strip line ++ ['\n']) lines

/-- Reading documents one after another: their bodies and the lines after the
last delimiter. -/
def takeDocs : List DocOp → List Text → Option (List Text × List Text)
  | [], lines => some ([], lines)
  | d :: docs, lines =>
      (takeDoc d [] lines).bind fun (body, rest) =>
        (takeDocs docs rest).map fun (bodies, rest) => (body :: bodies, rest)

/-- The last operator is the standard input. -/
def lastStdin (ops : List InOp) (bodies : List Text) : Stdin :=
  match ops.getLast? with
  | none => .inherited
  | some (.path path) => .path path
  | some (.doc _) => .body (bodies.getLastD [])

/-- The standard input and the lines left, by the operators as written. -/
def reference (ops : List InOp) (lines : List Text) : Option (Stdin × List Text) :=
  (takeDocs (docsOf ops) lines).map fun (bodies, rest) => (lastStdin ops bodies, rest)

/-! ## What the code does -/

/-- The standard input of a command that is a line of its own, and the lines
left, after `fill_heredocs`. -/
def filled (cmd : Cmd) (lines : List Text) : Option (Stdin × List Text) :=
  match fillHeredocs [⟨.pipeline ⟨[cmd]⟩, .always, false⟩] lines with
  | none => none
  | some (list, _, rest) =>
      ((listCmds list).head?.bind applyStdin).map fun stdin => (stdin, rest)

/-- The documents after the last `<`. -/
def keptDocs (ops : List InOp) : List DocOp :=
  ops.foldl (fun docs op => match op with
    | .doc d => docs ++ [d]
    | .path _ => []) []

/-- The only tab rule the command keeps. -/
def keptStrip (ops : List InOp) : Bool := ((keptDocs ops).getLast?.map DocOp.strip).getD false

/-- The documents the code reads. -/
def readDocs (ops : List InOp) : List DocOp :=
  (keptDocs ops).map fun d => ⟨keptStrip ops, d.delim⟩

/-- The input fields of a command that has seen these operators. -/
structure Holds (cmd : Cmd) (ops : List InOp) : Prop where
  redirIn : cmd.redirIn = match ops.getLast? with
    | some (.path path) => some path
    | _ => none
  delim : cmd.hereDelim = (keptDocs ops).getLast?.map DocOp.delim
  skip : cmd.hereSkipDelims = (keptDocs ops).dropLast.map DocOp.delim
  strip : cmd.hereStrip = keptStrip ops
  body : cmd.hereBody = none
  feedI : cmd.hereFeedI = 0

@[simp] theorem keptDocs_doc (ops : List InOp) (d : DocOp) :
    keptDocs (ops ++ [.doc d]) = keptDocs ops ++ [d] := by
  simp [keptDocs]

@[simp] theorem keptDocs_path (ops : List InOp) (path : Text) :
    keptDocs (ops ++ [.path path]) = [] := by
  simp [keptDocs]

/-- One more document operator. -/
theorem Holds.doc {cmd cmd' : Cmd} {ops : List InOp} {k : TokKind} {w : Word}
    (h : Holds cmd ops) (hk : k = .dless ∨ k = .dlessdash)
    (hredir : applyRedir cmd k w = some cmd') :
    Holds cmd' (ops ++ [.doc ⟨k == .dlessdash, w.text⟩]) := by
  have hcmd : cmd' =
      { cmd with
        redirIn := none, hereSkipDelims := cmd.hereSkipDelims ++ cmd.hereDelim.toList
        hereBody := none, hereDelim := some w.text, hereQuoted := w.quoted != .unquoted
        hereStrip := k == .dlessdash, hereFeedI := 0 } := by
    rcases hk with rfl | rfl <;> exact (Option.some.inj hredir).symm
  subst hcmd
  constructor
  · simp
  · simp
  · show cmd.hereSkipDelims ++ cmd.hereDelim.toList = _
    rw [h.skip, h.delim, keptDocs_doc, List.dropLast_concat]
    rcases List.eq_nil_or_concat (keptDocs ops) with hnil | ⟨docs, d, hdocs⟩
    · simp [hnil]
    · simp [hdocs]
  · simp [keptStrip]
  · rfl
  · rfl

/-- A path discards the documents before it. -/
theorem Holds.path {cmd cmd' : Cmd} {ops : List InOp} {w : Word}
    (hredir : applyRedir cmd .lt w = some cmd') : Holds cmd' (ops ++ [.path w.text]) := by
  obtain rfl := Option.some.inj hredir
  constructor <;> simp [hereClear, keptStrip]

/-- The other operators leave the input alone. -/
theorem Holds.other {cmd cmd' : Cmd} {ops : List InOp} {k : TokKind} {w : Word}
    (h : Holds cmd ops) (hredir : applyRedir cmd k w = some cmd')
    (hk : k ≠ .dless ∧ k ≠ .dlessdash ∧ k ≠ .lt) : Holds cmd' ops := by
  obtain ⟨hdless, hdash, hlt⟩ := hk
  cases k <;> simp_all [applyRedir] <;> subst hredir <;> exact ⟨h.1, h.2, h.3, h.4, h.5, h.6⟩

/-- A command records its input operators. -/
theorem holds_buildStageFrom {cmd cmd' : Cmd} {toks : List Token} {ops : List InOp}
    (h : buildStageFrom cmd toks = some cmd') (hops : Holds cmd ops) :
    Holds cmd' (ops ++ inputOps toks) := by
  fun_induction buildStageFrom cmd toks generalizing ops with
  | case1 cmd =>
      obtain rfl := Option.some.inj h
      simpa [inputOps] using hops
  | case2 cmd w toks ih =>
      exact ih h ⟨hops.redirIn, hops.delim, hops.skip, hops.strip, hops.body, hops.feedI⟩
  | case3 cmd toks ih =>
      exact ih h ⟨hops.redirIn, hops.delim, hops.skip, hops.strip, hops.body, hops.feedI⟩
  | case4 => contradiction
  | case5 cmd k w toks hk cmd₁ hredir ih =>
      by_cases hdless : k = .dless
      · subst hdless
        have hstep := ih h (hops.doc (Or.inl rfl) hredir)
        have hplain : (TokKind.dless == TokKind.dlessdash) = false := rfl
        simpa [inputOps, hplain] using hstep
      · by_cases hdash : k = .dlessdash
        · subst hdash
          have hstep := ih h (hops.doc (Or.inr rfl) hredir)
          simpa [inputOps] using hstep
        · by_cases hlt : k = .lt
          · subst hlt
            have hstep := ih h (Holds.path hredir : Holds _ (ops ++ _))
            simpa [inputOps] using hstep
          · have hstep := ih h (hops.other hredir ⟨hdless, hdash, hlt⟩)
            have hskip : inputOps (.op k :: .word w :: toks) = inputOps toks := by
              cases k <;> simp_all [inputOps]
            rw [hskip]
            exact hstep
  | case6 => contradiction

theorem holds_buildStage {cmd : Cmd} {toks : List Token} (h : buildStage toks = some cmd) :
    Holds cmd (inputOps toks) := by
  have hfrom : buildStageFrom {} toks = some cmd := by
    unfold buildStage at h
    split at h
    · contradiction
    · split at h <;> simp_all
  have hempty : Holds {} [] := ⟨rfl, rfl, rfl, rfl, rfl, rfl⟩
  simpa using holds_buildStageFrom hfrom hempty

/-! ## Filling one command -/

/-- `fill_heredocs` on a single command: the lines go to it until it has all. -/
def fillCmd : Cmd → List Text → Option (Cmd × List Text)
  | cmd, [] => if cmdHeredocPending cmd then none else some (cmd, [])
  | cmd, line :: lines =>
      if cmdHeredocPending cmd then
        (cmdHeredocFeed cmd (some line)).bind fun (_, cmd) => fillCmd cmd lines
      else some (cmd, line :: lines)

theorem fillHeredocs_single (cmd : Cmd) (lines : List Text) :
    fillHeredocs [⟨.pipeline ⟨[cmd]⟩, .always, false⟩] lines =
      (fillCmd cmd lines).map fun (cmd, rest) =>
        ([⟨.pipeline ⟨[cmd]⟩, .always, false⟩], false, rest) := by
  have hpending : ∀ cmd : Cmd,
      listHeredocPending [⟨.pipeline ⟨[cmd]⟩, .always, false⟩] = cmdHeredocPending cmd := by
    intro cmd
    simp [listHeredocPending_eq, listCmds, itemCmds, kindCmds]
  have hfeed : ∀ (cmd : Cmd) (line : Option Text), cmdHeredocPending cmd = true →
      listHeredocFeed line [⟨.pipeline ⟨[cmd]⟩, .always, false⟩] =
        (cmdHeredocFeed cmd line).map fun (ate, cmd) =>
          (ate, [⟨.pipeline ⟨[cmd]⟩, .always, false⟩]) := by
    intro cmd line hp
    simp only [listHeredocFeed, itemHeredocFeed, kindHeredocFeed, cmdsHeredocFeed,
      itemHeredocPending, kindHeredocPending, List.any_cons, List.any_nil, Bool.or_false, hp,
      if_true]
    cases cmdHeredocFeed cmd line <;> rfl
  induction lines generalizing cmd with
  | nil =>
      by_cases hp : cmdHeredocPending cmd = true
      · have heof : cmdHeredocFeed cmd none = none := by simp [cmdHeredocFeed, hp]
        simp [fillHeredocs, fillCmd, petrushHeredocFeedLine, hpending, hfeed, hp, heof]
      · simp [fillHeredocs, fillCmd, hpending, hp]
  | cons line lines ih =>
      by_cases hp : cmdHeredocPending cmd = true
      · cases hline : cmdHeredocFeed cmd (some line) with
        | none =>
            simp [fillHeredocs, fillCmd, petrushHeredocFeedLine, hpending, hfeed, hp, hline]
        | some fed =>
            obtain ⟨ate, cmd'⟩ := fed
            have hnonneg : ¬ (if cmdHeredocPending cmd' then (1 : Int) else 0) < 0 := by
              split <;> omega
            simp only [fillHeredocs, fillCmd, petrushHeredocFeedLine, hpending, hfeed, hp, hline,
              Bool.not_true, Bool.false_eq_true, if_false, if_true, Option.map_some,
              Option.bind_some, reduceCtorEq, false_and, hnonneg]
            exact ih cmd'
      · simp [fillHeredocs, fillCmd, hpending, hp]

/-- Reading the document a command waits for. -/
theorem fillCmd_doc {cmd : Cmd} {delim : Text} (lines : List Text)
    (hp : cmdHeredocPending cmd = true) (hdelim : cmdCurrentDelim cmd = some delim) :
    fillCmd cmd lines =
      (takeDoc ⟨cmd.hereStrip, delim⟩ (cmd.hereBody.getD []) lines).bind fun (body, rest) =>
        fillCmd (closeHeredoc { cmd with hereBody := some body }) rest := by
  induction lines generalizing cmd with
  | nil => simp [fillCmd, takeDoc, hp]
  | cons line lines ih =>
      simp only [fillCmd, hp, if_true, cmdHeredocFeed, Bool.not_true, Bool.false_eq_true, if_false,
        hdelim, takeDoc]
      by_cases hend : stripTabs cmd.hereStrip line = delim
      · simp only [hend, if_true, Option.bind_some]
        congr 1
      · simp only [hend, if_false, hereBodyAppend]
        by_cases hsize : (cmd.hereBody.getD []).length +
            (stripTabs cmd.hereStrip line).length + 1 > heredocMax
        · simp [hsize]
        · simp only [hsize, if_false, Option.map_some, Option.bind_some]
          rw [@ih { cmd with
            hereBody := some (cmd.hereBody.getD [] ++ stripTabs cmd.hereStrip line ++ ['\n']) }
            hp hdelim]
          rfl

theorem fillCmd_settled {cmd : Cmd} (lines : List Text) (h : cmdHeredocPending cmd = false) :
    fillCmd cmd lines = some (cmd, lines) := by
  cases lines <;> simp [fillCmd, h]

/-- Reading all documents a command waits for; the delimiters left are those
from the feed index on. -/
theorem fillCmd_docs {delims : List Text} {cmd : Cmd} {delim : Text} (lines : List Text)
    (hdelim : cmd.hereDelim = some delim) (hbody : cmd.hereBody = none)
    (hleft : (cmd.hereSkipDelims ++ [delim]).drop cmd.hereFeedI = delims) (hne : delims ≠ []) :
    fillCmd cmd lines =
      (takeDocs (delims.map fun d => ⟨cmd.hereStrip, d⟩) lines).map fun (bodies, rest) =>
        ({ cmd with
            hereBody := some (bodies.getLastD [])
            hereFeedI := cmd.hereSkipDelims.length + 1 }, rest) := by
  induction delims generalizing cmd lines with
  | nil => exact absurd rfl hne
  | cons d delims ih =>
      have hlen : cmd.hereSkipDelims.length + 1 - cmd.hereFeedI = delims.length + 1 := by
        have h := congrArg List.length hleft
        simpa using h
      have hp : cmdHeredocPending cmd = true := by
        simp only [cmdHeredocPending, hdelim, Option.isSome_some, Bool.true_and, decide_eq_true_eq]
        omega
      have hcur : cmdCurrentDelim cmd = some d := by
        have hget : (cmd.hereSkipDelims ++ [delim])[cmd.hereFeedI]? = some d := by
          have h := congrArg (fun l : List Text => l[0]?) hleft
          simpa [List.getElem?_drop] using h
        unfold cmdCurrentDelim
        by_cases hskip : cmd.hereFeedI < cmd.hereSkipDelims.length
        · rw [if_pos hskip]
          rwa [List.getElem?_append_left hskip] at hget
        · have hmain : cmd.hereFeedI = cmd.hereSkipDelims.length := by omega
          rw [if_neg hskip, if_pos hmain, hdelim]
          simpa [hmain] using hget
      rw [fillCmd_doc lines hp hcur, hbody]
      simp only [Option.getD_none, List.map_cons, takeDocs]
      cases htake : takeDoc ⟨cmd.hereStrip, d⟩ [] lines with
      | none => rfl
      | some taken =>
          obtain ⟨body, rest⟩ := taken
          simp only [Option.bind_some]
          cases delims with
          | nil =>
              have hmain : cmd.hereFeedI = cmd.hereSkipDelims.length := by
                simp only [List.length_nil] at hlen
                omega
              rw [fillCmd_settled]
              · simp [closeHeredoc, hmain, takeDocs]
              · simp [closeHeredoc, hmain, cmdHeredocPending]
          | cons d' delims =>
              have hskip : cmd.hereFeedI ≠ cmd.hereSkipDelims.length := by
                simp only [List.length_cons] at hlen
                omega
              have hdrop : (cmd.hereSkipDelims ++ [delim]).drop (cmd.hereFeedI + 1) =
                  d' :: delims := by
                rw [← List.tail_drop, hleft]
                rfl
              simp only [closeHeredoc, hskip, if_false]
              rw [@ih { cmd with hereBody := none, hereFeedI := cmd.hereFeedI + 1 } rest
                hdelim rfl hdrop (by simp)]
              simp only [Option.map_map]
              cases hmore : takeDocs ((d' :: delims).map fun d => ⟨cmd.hereStrip, d⟩) rest with
              | none => rfl
              | some more =>
                  obtain ⟨bodies, rest'⟩ := more
                  have hbodies : bodies ≠ [] := by
                    rintro rfl
                    simp only [List.map_cons, takeDocs, Option.bind_eq_some_iff,
                      Option.map_eq_some_iff, Prod.mk.injEq] at hmore
                    obtain ⟨_, _, _, _, hcons, _⟩ := hmore
                    exact List.cons_ne_nil _ _ hcons
                  simp [List.getLastD_eq_getLast?, List.getLast?_cons,
                    List.getLast?_eq_some_getLast hbodies]

/-- **What the code reads**: the documents after the last `<`, all with the rule
of the last one. -/
theorem filled_eq {cmd : Cmd} {toks : List Token} (h : buildStage toks = some cmd)
    (lines : List Text) :
    filled cmd lines = (takeDocs (readDocs (inputOps toks)) lines).map fun (bodies, rest) =>
      (lastStdin (inputOps toks) bodies, rest) := by
  have hops := holds_buildStage h
  generalize inputOps toks = ops at hops
  unfold filled
  rw [fillHeredocs_single]
  rcases List.eq_nil_or_concat (keptDocs ops) with hnil | ⟨docs, d, hdocs⟩
  · have hdelim : cmd.hereDelim = none := by rw [hops.delim, hnil]; rfl
    rw [fillCmd_settled lines (by simp [cmdHeredocPending, hdelim])]
    have hlast : ∀ d, ops.getLast? ≠ some (.doc d) := by
      intro d hd
      obtain ⟨before, rfl⟩ := List.getLast?_eq_some_iff.mp hd
      simp at hnil
    simp only [readDocs, hnil, List.map_nil, takeDocs, Option.map_some, listCmds, itemCmds,
      kindCmds, List.append_nil, List.head?_cons, Option.bind_some, applyStdin, hops.body, hdelim,
      hops.redirIn, lastStdin]
    cases hget : ops.getLast? with
    | none => rfl
    | some op =>
        cases op with
        | doc d => exact absurd hget (hlast d)
        | path path => rfl
  · have hdelim : cmd.hereDelim = some d.delim := by rw [hops.delim, hdocs]; simp
    have hleft : (cmd.hereSkipDelims ++ [d.delim]).drop cmd.hereFeedI =
        (keptDocs ops).map DocOp.delim := by
      rw [hops.feedI, hops.skip, hdocs]
      simp
    have hlast : ∃ d', ops.getLast? = some (.doc d') := by
      rcases List.eq_nil_or_concat ops with rfl | ⟨before, op, rfl⟩
      · simp [keptDocs] at hdocs
      · cases op with
        | doc d' => exact ⟨d', by simp⟩
        | path path => simp at hdocs
    obtain ⟨d', hlast⟩ := hlast
    rw [fillCmd_docs lines hdelim hops.body hleft (by simp [hdocs]), hops.strip]
    simp only [List.map_map]
    show _ = (takeDocs ((keptDocs ops).map fun d => ⟨keptStrip ops, d.delim⟩) lines).map _
    cases htake : takeDocs ((keptDocs ops).map fun d => ⟨keptStrip ops, d.delim⟩) lines with
    | none => simp [Function.comp_def, htake]
    | some taken =>
        simp [Function.comp_def, htake, listCmds, itemCmds, kindCmds, applyStdin, lastStdin, hlast]

/-! ## Which commands are read as written -/

/-- The first operator does not disturb the second: a path must not follow a
document, and two documents have the same tab rule. -/
def InOp.Before : InOp → InOp → Prop
  | .doc d, .doc d' => d.strip = d'.strip
  | .doc _, .path _ => False
  | .path _, _ => True

instance (op op' : InOp) : Decidable (op.Before op') := by
  cases op <;> cases op' <;> unfold InOp.Before <;> infer_instance

/-- No `<` stands after a document, and `<<` and `<<-` are not mixed. -/
def OneRule (ops : List InOp) : Prop := ops.Pairwise InOp.Before

instance (ops : List InOp) : Decidable (OneRule ops) := by
  unfold OneRule
  infer_instance

/-- No line ends a document whose lines lose their tabs and whose delimiter
begins with one. -/
def DocOp.Endless (d : DocOp) : Prop := d.strip = true ∧ d.delim.head? = some '\t'

@[simp] theorem docsOf_doc (ops : List InOp) (d : DocOp) :
    docsOf (ops ++ [.doc d]) = docsOf ops ++ [d] := by
  simp [docsOf]

@[simp] theorem docsOf_path (ops : List InOp) (path : Text) :
    docsOf (ops ++ [.path path]) = docsOf ops := by
  simp [docsOf]

theorem mem_docsOf {ops : List InOp} {d : DocOp} : d ∈ docsOf ops ↔ InOp.doc d ∈ ops := by
  constructor
  · intro h
    obtain ⟨op, hop, hd⟩ := List.mem_filterMap.mp h
    cases op with
    | doc e => exact Option.some.inj hd ▸ hop
    | path path => contradiction
  · intro h
    exact List.mem_filterMap.mpr ⟨.doc d, h, rfl⟩

theorem keptDocs_suffix (ops : List InOp) : keptDocs ops <:+ docsOf ops := by
  induction ops using List.reverseRecOn with
  | nil => exact List.suffix_refl _
  | append_singleton ops op ih =>
      cases op with
      | doc d =>
          obtain ⟨front, hfront⟩ := ih
          rw [keptDocs_doc, docsOf_doc, ← hfront]
          exact ⟨front, by simp⟩
      | path path =>
          rw [keptDocs_path]
          exact List.nil_suffix

/-- Documents forced to one rule are those written when they all had it. -/
theorem map_kept_eq_docsOf_iff (ops : List InOp) (strip : Bool) :
    (keptDocs ops).map (fun d => ⟨strip, d.delim⟩) = docsOf ops ↔
      keptDocs ops = docsOf ops ∧ ∀ d ∈ docsOf ops, d.strip = strip := by
  constructor
  · intro h
    have hlen : (keptDocs ops).length = (docsOf ops).length := by
      simpa using congrArg List.length h
    constructor
    · exact (keptDocs_suffix ops).eq_of_length hlen
    · intro d hd
      rw [← h] at hd
      obtain ⟨d', _, rfl⟩ := List.mem_map.mp hd
      rfl
  · rintro ⟨hkept, hstrip⟩
    rw [hkept]
    conv_rhs => rw [← List.map_id (docsOf ops)]
    apply List.map_congr_left
    intro d hd
    rw [← hstrip d hd]
    rfl

theorem readDocs_eq_docsOf_iff (ops : List InOp) : readDocs ops = docsOf ops ↔ OneRule ops := by
  induction ops using List.reverseRecOn with
  | nil => simp [readDocs, keptDocs, docsOf, OneRule]
  | append_singleton ops op ih =>
      unfold OneRule at ih ⊢
      rw [List.pairwise_append]
      simp only [List.mem_singleton, forall_eq, List.pairwise_singleton, true_and]
      cases op with
      | path path =>
          rw [docsOf_path]
          have hread : readDocs (ops ++ [.path path]) = [] := by simp [readDocs]
          rw [hread]
          constructor
          · intro hnil
            have hpaths : ∀ op ∈ ops, ∃ p, op = .path p := by
              intro op hop
              cases op with
              | path p => exact ⟨p, rfl⟩
              | doc d =>
                  have hd : d ∈ docsOf ops := mem_docsOf.mpr hop
                  rw [← hnil] at hd
                  contradiction
            constructor
            · apply List.pairwise_of_forall_mem_list
              intro op hop op' _
              obtain ⟨p, rfl⟩ := hpaths op hop
              trivial
            · intro op hop
              obtain ⟨p, rfl⟩ := hpaths op hop
              trivial
          · rintro ⟨_, hbefore⟩
            symm
            apply List.eq_nil_iff_forall_not_mem.mpr
            intro d hd
            exact hbefore _ (mem_docsOf.mp hd)
      | doc d =>
          rw [docsOf_doc]
          have hread : readDocs (ops ++ [.doc d]) =
              (keptDocs ops).map (fun e => ⟨d.strip, e.delim⟩) ++ [d] := by
            simp [readDocs, keptStrip]
          rw [hread, List.append_left_inj, map_kept_eq_docsOf_iff]
          constructor
          · rintro ⟨hkept, hstrip⟩
            have hkeep : readDocs ops = docsOf ops := by
              unfold readDocs
              rw [map_kept_eq_docsOf_iff]
              refine ⟨hkept, fun e he => ?_⟩
              have hne : keptDocs ops ≠ [] := by
                rw [hkept]
                exact List.ne_nil_of_mem he
              have hlast : (keptDocs ops).getLast hne ∈ docsOf ops := by
                rw [← hkept]
                exact List.getLast_mem hne
              rw [hstrip e he, keptStrip, List.getLast?_eq_some_getLast hne]
              exact (hstrip _ hlast).symm
            refine ⟨ih.mp hkeep, fun op hop => ?_⟩
            cases op with
            | path p => trivial
            | doc e => exact hstrip e (mem_docsOf.mpr hop)
          · rintro ⟨hpair, hbefore⟩
            have hkeep := ih.mpr hpair
            constructor
            · unfold readDocs at hkeep
              exact ((map_kept_eq_docsOf_iff ops _).mp hkeep).1
            · intro e he
              exact hbefore _ (mem_docsOf.mp he)

/-! ## Lines that tell two readings apart -/

/-- A line that ends the document and keeps its tabs when they must be stripped. -/
def DocOp.closer (d : DocOp) : Text := if d.strip then '\t' :: d.delim else d.delim

theorem stripTabs_head (line : Text) : (stripTabs true line).head? ≠ some '\t' := by
  unfold stripTabs
  rw [if_pos rfl]
  intro h
  have hget := List.head?_dropWhile_not (· == '\t') line
  rw [h] at hget
  simp at hget

theorem stripTabs_closer {d : DocOp} (h : ¬ d.Endless) : stripTabs d.strip d.closer = d.delim := by
  unfold DocOp.Endless at h
  by_cases hs : d.strip = true
  · have hhead : d.delim.head? ≠ some '\t' := fun ht => h ⟨hs, ht⟩
    simp only [DocOp.closer, hs, if_true, stripTabs]
    cases hd : d.delim with
    | nil => simp
    | cons c delim =>
        have hc : c ≠ '\t' := by
          intro hc
          exact hhead (by rw [hd, hc]; rfl)
        simp [hc]
  · simp [DocOp.closer, hs, stripTabs]

theorem takeDoc_endless {d : DocOp} (h : d.Endless) (body : Text) (lines : List Text) :
    takeDoc d body lines = none := by
  induction lines generalizing body with
  | nil => rfl
  | cons line lines ih =>
      have hne : stripTabs d.strip line ≠ d.delim := by
        intro heq
        rw [h.1] at heq
        exact stripTabs_head line (heq ▸ h.2)
      simp [takeDoc, hne, ih]

theorem takeDocs_endless {docs : List DocOp} {d : DocOp} (hd : d ∈ docs) (h : d.Endless)
    (lines : List Text) : takeDocs docs lines = none := by
  induction docs generalizing lines with
  | nil => contradiction
  | cons e docs ih =>
      rcases List.mem_cons.mp hd with rfl | hd
      · simp [takeDocs, takeDoc_endless h]
      · simp [takeDocs, ih hd]

/-- Documents that can end are ended by their closers. -/
theorem takeDocs_closers {docs : List DocOp} (h : ∀ d ∈ docs, ¬ d.Endless) :
    (takeDocs docs (docs.map DocOp.closer)).isSome = true := by
  induction docs with
  | nil => rfl
  | cons d docs ih =>
      have hrest := ih fun e he => h e (by simp [he])
      simp [takeDocs, takeDoc, stripTabs_closer (h d (by simp)), hrest]

/-- A document takes at least one line, and a single one only when that line ends it. -/
theorem takeDoc_length {d : DocOp} {body : Text} {lines : List Text} {r : Text × List Text}
    (h : takeDoc d body lines = some r) :
    r.2.length < lines.length ∧
      (r.2.length + 1 = lines.length → ∃ line, lines = line :: r.2 ∧
        stripTabs d.strip line = d.delim) := by
  induction lines generalizing body with
  | nil => contradiction
  | cons line lines ih =>
      simp only [takeDoc] at h
      split at h
      · obtain rfl := Option.some.inj h
        refine ⟨by simp, fun _ => ⟨line, rfl, ?_⟩⟩
        assumption
      · split at h
        · contradiction
        · have hlt := (ih h).1
          constructor
          · simp only [List.length_cons]
            omega
          · intro heq
            simp only [List.length_cons] at heq
            omega

theorem takeDocs_length {docs : List DocOp} {lines : List Text}
    (h : (takeDocs docs lines).isSome = true) :
    docs.length ≤ lines.length ∧ (docs.length = lines.length →
      List.Forall₂ (fun d line => stripTabs d.strip line = d.delim) docs lines) := by
  induction docs generalizing lines with
  | nil =>
      refine ⟨by simp, fun heq => ?_⟩
      obtain rfl : lines = [] := List.length_eq_zero_iff.mp heq.symm
      exact .nil
  | cons d docs ih =>
      simp only [takeDocs] at h
      cases htake : takeDoc d [] lines with
      | none => simp [htake] at h
      | some r =>
          simp only [htake, Option.bind_some, Option.isSome_map] at h
          obtain ⟨hlt, hone⟩ := takeDoc_length htake
          obtain ⟨hle, hall⟩ := ih h
          constructor
          · simp only [List.length_cons]
            omega
          · intro heq
            simp only [List.length_cons] at heq
            obtain ⟨line, rfl, hline⟩ := hone (by omega)
            exact .cons hline (hall (by simpa using heq))

/-- Documents with the same delimiters that end each other have the same rules. -/
theorem eq_of_closers : ∀ {docs docs' : List DocOp},
    docs.map DocOp.delim = docs'.map DocOp.delim →
    List.Forall₂ (fun d line => stripTabs d.strip line = d.delim) docs' (docs.map DocOp.closer) →
    List.Forall₂ (fun d line => stripTabs d.strip line = d.delim) docs (docs'.map DocOp.closer) →
    docs = docs'
  | [], [], _, _, _ => rfl
  | [], _ :: _, h, _, _ => by contradiction
  | _ :: _, [], h, _, _ => by contradiction
  | ⟨strip, delim⟩ :: docs, ⟨strip', delim'⟩ :: docs', h, hab, hba => by
      simp only [List.map_cons, List.cons.injEq, List.forall₂_cons] at h hab hba
      obtain ⟨rfl, hdelims⟩ := h
      have hstrip : strip = strip' := by
        have h₁ := hab.1
        have h₂ := hba.1
        cases strip <;> cases strip' <;> simp_all [DocOp.closer, stripTabs]
      rw [hstrip, eq_of_closers hdelims hab.2 hba.2]

/-- Two readings of the same delimiters that succeed on the same files are one,
unless neither ever succeeds. -/
theorem eq_of_takeDocs_agree {docs docs' : List DocOp}
    (hsuffix : docs.map DocOp.delim <:+ docs'.map DocOp.delim)
    (hagree : ∀ lines, (takeDocs docs lines).isSome = (takeDocs docs' lines).isSome)
    (hends : (∀ d ∈ docs, ¬ d.Endless) ∨ ∀ d ∈ docs', ¬ d.Endless) : docs = docs' := by
  have hboth : (∀ d ∈ docs, ¬ d.Endless) ∧ ∀ d ∈ docs', ¬ d.Endless := by
    rcases hends with h | h
    · refine ⟨h, fun d hd hend => ?_⟩
      have hsome := takeDocs_closers h
      rw [hagree, takeDocs_endless hd hend] at hsome
      contradiction
    · refine ⟨fun d hd hend => ?_, h⟩
      have hsome := takeDocs_closers h
      rw [← hagree, takeDocs_endless hd hend] at hsome
      contradiction
  have hsome := takeDocs_closers hboth.1
  have hsome' := takeDocs_closers hboth.2
  rw [hagree] at hsome
  rw [← hagree] at hsome'
  obtain ⟨hle', hall'⟩ := takeDocs_length hsome
  obtain ⟨hle, hall⟩ := takeDocs_length hsome'
  rw [List.length_map] at hle hle' hall hall'
  have hlen : docs.length = docs'.length := by omega
  have hdelims := hsuffix.eq_of_length (by simpa using hlen)
  exact eq_of_closers hdelims (hall' hlen.symm) (hall hlen)

/-- **Input redirections are read as written** exactly when no `<` stands after
a document and `<<` and `<<-` are not mixed; or else when neither the documents
as written nor those the code reads ever end. -/
theorem filled_eq_reference_iff {cmd : Cmd} {toks : List Token} (h : buildStage toks = some cmd) :
    (∀ lines, filled cmd lines = reference (inputOps toks) lines) ↔
      OneRule (inputOps toks) ∨
        ((∃ d ∈ readDocs (inputOps toks), d.Endless) ∧ ∃ d ∈ docsOf (inputOps toks), d.Endless) := by
  simp only [filled_eq h, reference]
  generalize inputOps toks = ops
  constructor
  · intro hsame
    by_cases hends : (∃ d ∈ readDocs ops, d.Endless) ∧ ∃ d ∈ docsOf ops, d.Endless
    · exact Or.inr hends
    · left
      rw [← readDocs_eq_docsOf_iff]
      have hsuffix : (readDocs ops).map DocOp.delim <:+ (docsOf ops).map DocOp.delim := by
        have hmap : (readDocs ops).map DocOp.delim = (keptDocs ops).map DocOp.delim := by
          simp [readDocs]
        rw [hmap]
        exact (keptDocs_suffix ops).map _
      apply eq_of_takeDocs_agree hsuffix
      · intro lines
        simpa using congrArg Option.isSome (hsame lines)
      · rw [not_and_or] at hends
        simpa using hends
  · rintro (hone | ⟨⟨d, hd, hend⟩, d', hd', hend'⟩) lines
    · rw [(readDocs_eq_docsOf_iff ops).mpr hone]
    · rw [takeDocs_endless hd hend, takeDocs_endless hd' hend']

/-- `cat <<A <<B` is read as written. -/
theorem filled_eq_reference_iff_two :
    filled
        { argv := [⟨"cat".toList, .unquoted⟩], hereDelim := some "B".toList
          hereSkipDelims := ["A".toList] } ["x".toList, "A".toList, "y".toList, "B".toList] =
      reference [.doc ⟨false, "A".toList⟩, .doc ⟨false, "B".toList⟩]
        ["x".toList, "A".toList, "y".toList, "B".toList] :=
  (@filled_eq_reference_iff _ [.word ⟨"cat".toList, .unquoted⟩, .op .dless,
    .word ⟨"A".toList, .unquoted⟩, .op .dless, .word ⟨"B".toList, .unquoted⟩] rfl).mpr
    (Or.inl (by decide +kernel)) _

/-- **A `<` after a document leaks its lines**: after `cat <<A <f` the lines `x`
and `A` are left to be read as commands.  And after `cat <<A <<-B` a line with
`A` behind a tab, a body line of the first document, ends it. -/
theorem laterOperators_leak :
    (∃ toks cmd, tokenize "cat <<A <f".toList = some toks ∧ buildStage toks = some cmd ∧
      filled cmd ["x".toList, "A".toList] =
        some (.path "f".toList, ["x".toList, "A".toList]) ∧
      reference (inputOps toks) ["x".toList, "A".toList] = some (.path "f".toList, [])) ∧
    ∃ toks cmd, tokenize "cat <<A <<-B".toList = some toks ∧ buildStage toks = some cmd ∧
      filled cmd ["\tA".toList, "B".toList] = some (.body [], []) ∧
      reference (inputOps toks) ["\tA".toList, "B".toList] = none := by
  constructor
  · exact ⟨_, _, rfl, rfl, by decide +kernel, by decide +kernel⟩
  · exact ⟨_, _, rfl, rfl, by decide +kernel, by decide +kernel⟩

end Petrush.Verified.InputRedirs
