import Petrush.Verified.Atomic
import Petrush.Verified.Refusals
import Petrush.Verified.Segments
import Petrush.Verified.SingleQuotes
import Petrush.Verified.Splitting
import Petrush.Verified.Stages

/-!
# Reading back the dump of the traps

`trap` without arguments prints a command for every slot that is set, and the lines are
meant to be read in again.  An action stands between single quotes, and a quote inside it is
written `'\''`, which the tokenizer does not take as part of one word: it ends the word at
the first quote, and the rest is read as shell code.  An action that is `-` is read as a
reset.

## Main results

* `dumpRun_traps` — the table that is left when every line is read.
* `readsBack_iff` — the tables that are read back.
-/

namespace Petrush.Verified.TrapDump

open Petrush.Lib.CText
open Petrush.Lib.Run
open Petrush.Lib.Stdlib
open Petrush.Foundation.Process
open Petrush.Mid.Ast
open Petrush.Mid.Dispatcher
open Petrush.Mid.Expand
open Petrush.Mid.Glob
open Petrush.Mid.Lexer
open Petrush.Mid.Parser
open Petrush.Mid.State
open Petrush.Mid.Trap
open Petrush.Verified.Connectors
open Petrush.Verified.Expansion (expandWord_eq)
open Petrush.Verified.InertWords
open Petrush.Verified.Invariants
open Petrush.Verified.Keywords (advance_append)
open Petrush.Verified.Lexemes (findFrom_noConnector)
open Petrush.Verified.LineScan
open Petrush.Verified.Record
open Petrush.Verified.Refusals
open Petrush.Verified.Scanning
open Petrush.Verified.Segments
open Petrush.Verified.SingleQuotes
open Petrush.Verified.Splitting
open Petrush.Verified.Stages
open Petrush.Verified.Traversal (checked noted)

/-! ## What is read back -/

/-- Each line of the dump is parsed and run. -/
def dumpRun (O : Outside) (n : Nat) (traps : TrapTable) : Prog Shell Unit :=
  forEach (runText (dispatchList O (n + 1))) (trapDump traps)

/-- A shell at rest: nothing is unwinding, no signal is pending, no error is left, and no
function hides the builtin. -/
structure Ready (s : Shell) : Prop where
  returning : s.returning = false
  pending : ∀ sig, s.pending sig = false
  builtin : fnGet s.fns "trap".toList = none
  clear : Clear s

/-- No signal arrives. -/
def Undisturbed (O : Outside) : Prop := ∀ log, O.arrivals log = []

/-- The lines recreate the table in every shell without traps. -/
def ReadsBack (traps : TrapTable) : Prop :=
  ∀ (O : Outside) (n : Nat) (s : Shell), Undisturbed O → Ready s → s.traps = (fun _ => none) →
    ∃ t, dumpRun O n traps s = .ok t () ∧ t.traps = traps

/-- The action is a text that its own line sets again. -/
def Readable (action : Text) : Prop := '\'' ∉ action ∧ action ≠ ['-']

instance (action : Text) : Decidable (Readable action) := inferInstanceAs (Decidable (_ ∧ _))

/-! ## A line and its tokens -/

/-- A word of letters. -/
def bare (t : Text) : Word := ⟨t, .unquoted⟩

/-- The list of one command. -/
def lineList (pl : Pipeline) : PList := [⟨.pipeline pl, .always, false⟩]

/-- A line that begins with a command and has no connector is one pipeline. -/
theorem petrushParseList_pipeline {line : Text} (hne : line ≠ [])
    (hhead : ∀ c ∈ line.head?, isspace c = false) (hlast : ∀ c ∈ line.getLast?, isspace c = false)
    (hstart : startsCompound ⟨[], line⟩ = false) (hconn : findListConnector ⟨[], line⟩ = none) :
    petrushParseList line = (parsePipeline line).map lineList := by
  have hskip : skipWsPos ⟨[], line⟩ = ⟨[], line⟩ := by
    cases line with
    | nil => contradiction
    | cons c s =>
        have hc : isspace c = false := hhead c rfl
        simp [skipWsPos, skipWsFrom, hc]
  have hadv := advance_append line [] []
  rw [List.append_nil] at hadv
  have hitem : parsePipelineItem .always ⟨[], line⟩ = (parsePipeline line).map fun pl =>
      .item ⟨.pipeline pl, .always, false⟩ .always false ⟨line.reverse ++ [], []⟩ := by
    simp only [parsePipelineItem, hconn, Option.map_none, Option.getD_none, List.take_length,
      trim_eq_self hhead hlast, hne, if_false, hadv]
    cases parsePipeline line <;> rfl
  rw [petrushParseList, parseListUntil_pipeline _ _ hskip hne hstart, hitem]
  cases parsePipeline line <;> rfl

/-- What every line begins with. -/
def lead : Text := "trap -- ".toList

theorem trapLine_eq (action name : Text) :
    trapLine action name = lead ++ (trapPrintQuoted action ++ ' ' :: name) :=
  List.append_assoc _ _ _

theorem startsCompound_trap (rest : Text) :
    startsCompound ⟨[], lead ++ rest⟩ = false := by
  have hkw : ∀ (c : Char) (kw s : Text), (c == 't') = false →
      matchKwAt (c :: kw) ⟨[], 't' :: s⟩ = none := by
    intro c kw s hc
    have hskip : skipWsPos ⟨[], 't' :: s⟩ = ⟨[], 't' :: s⟩ := rfl
    simp [matchKwAt, hskip, List.isPrefixOf, hc]
  show startsCompound ⟨[], 't' :: 'r' :: 'a' :: 'p' :: ' ' :: '-' :: '-' :: ' ' :: rest⟩ = false
  have hfn : looksLikeFnDef ⟨[], 't' :: 'r' :: 'a' :: 'p' :: ' ' :: '-' :: '-' :: ' ' :: rest⟩ =
      false := rfl
  have hif := hkw 'i' ['f']
  have hwhile := hkw 'w' ['h', 'i', 'l', 'e']
  have hfor := hkw 'f' ['o', 'r']
  have hcase := hkw 'c' ['a', 's', 'e']
  have hdb := hkw '[' ['[']
  have hfunction := hkw 'f' ['u', 'n', 'c', 't', 'i', 'o', 'n']
  simp [startsCompound, hfn, hif, hwhile, hfor, hcase, hdb, hfunction]

theorem tokenize_trap (rest : Text) : tokenize (lead ++ rest) =
    (tokenizeFrom 0 rest).map fun toks =>
      .word (bare "trap".toList) :: .word (bare "--".toList) :: toks := by
  have hrun : tokenize (lead ++ rest) =
      ((tokenizeFrom 0 rest).map (.word (bare "--".toList) :: ·)).map
        (.word (bare "trap".toList) :: ·) := rfl
  rw [hrun, Option.map_map]
  rfl

/-- Bytes that no scan stops at. -/
def IsLetters (t : Text) : Prop :=
  t.all fun x => !isQuote x && x != '$' && x != ';' && x != '&' && x != '|'

instance (t : Text) : Decidable (IsLetters t) := inferInstanceAs (Decidable (_ = true))

theorem IsLetters.passes {t : Text} (h : IsLetters t) (r : Text) : Passes t r := by
  apply passes_plain
  intro x hx
  simpa [and_assoc] using List.all_eq_true.mp h x hx

/-- The names of the conditions are words. -/
structure Plain (name : Text) : Prop where
  token : tokenizeFrom 0 (' ' :: name) = some [.word (bare name)]
  letters : IsLetters name
  last : ∀ x ∈ name.getLast?, isspace x = false
  nonempty : name ≠ []
  inert : Inert (bare name)

theorem inert_bare {t : Text} (hstill : Still t) (hmeta : patternHasMeta t = false) :
    Inert (bare t) := by
  refine Or.inr ⟨hstill, Or.inr fun hglobs => ?_⟩
  have htrue : patternHasMeta t = true := hglobs.2.1
  rw [hmeta] at htrue
  contradiction

set_option maxRecDepth 4096 in
theorem trapConds_plain : ∀ c ∈ trapConds, Plain c.1 := by
  have htoken : ∀ c ∈ trapConds, tokenizeFrom 0 (' ' :: c.1) = some [.word (bare c.1)] := by decide
  have hletters : ∀ c ∈ trapConds, IsLetters c.1 := by decide
  have hlast : ∀ c ∈ trapConds, c.1.getLast?.all fun x => !isspace x := by decide
  have hne : ∀ c ∈ trapConds, c.1 ≠ [] := by decide
  have hstill : ∀ c ∈ trapConds, Still c.1 := by decide
  have hmeta : ∀ c ∈ trapConds, patternHasMeta c.1 = false := by decide
  intro c hc
  refine ⟨htoken c hc, hletters c hc, ?_, hne c hc, inert_bare (hstill c hc) (hmeta c hc)⟩
  intro x hx
  have hall := hlast c hc
  rw [hx] at hall
  simpa using hall

/-! ## The line of an action without a quote -/

/-- `trap -- 'action' name`. -/
def trapCmd (action name : Text) : Cmd where
  argv := [bare "trap".toList, bare "--".toList, ⟨action, .single⟩, bare name]

theorem trapPrintQuoted_eq {action : Text} (h : '\'' ∉ action) :
    trapPrintQuoted action = '\'' :: action ++ ['\''] := by
  have hsame : ∀ t : Text, '\'' ∉ t →
      t.flatMap (fun c => if c = '\'' then "'\\''".toList else [c]) = t := by
    intro t ht
    induction t with
    | nil => rfl
    | cons c t ih =>
        rw [List.mem_cons, not_or] at ht
        rw [List.flatMap_cons, if_neg (Ne.symm ht.1), ih ht.2]
        rfl
  rw [trapPrintQuoted, hsame action h]

/-- The line ends like its name. -/
theorem trapLine_ends (action : Text) {name : Text} (h : Plain name) :
    trapLine action name ≠ [] ∧ (∀ c ∈ (trapLine action name).head?, isspace c = false) ∧
      ∀ c ∈ (trapLine action name).getLast?, isspace c = false := by
  have hlast : (trapLine action name).getLast? = name.getLast? := by
    have hsplit : trapLine action name = (lead ++ trapPrintQuoted action ++ [' ']) ++ name := by
      rw [trapLine_eq]
      simp
    rw [hsplit, List.getLast?_append_of_ne_nil _ h.nonempty]
  refine ⟨List.cons_ne_nil _ _, ?_, ?_⟩
  · intro c hc
    obtain rfl : 't' = c := Option.some.inj hc
    decide
  · rw [hlast]
    exact h.last

/-- **The line is parsed to its command**, whatever else the action is. -/
theorem petrushParseList_line {action name : Text} (hname : Plain name) (h : '\'' ∉ action) :
    petrushParseList (trapLine action name) = some (lineList ⟨[trapCmd action name]⟩) := by
  obtain ⟨hne, hhead, hlast⟩ := trapLine_ends action hname
  have hline : trapLine action name = lead ++ single action (' ' :: name) := by
    rw [trapLine_eq, trapPrintQuoted_eq h, single]
    simp
  have hstart : startsCompound ⟨[], trapLine action name⟩ = false := by
    rw [trapLine_eq]
    exact startsCompound_trap _
  have hconn : findListConnector ⟨[], trapLine action name⟩ = none := by
    apply findListConnector_end
    rw [trapLine_eq, trapPrintQuoted_eq h]
    have hlead : IsLetters lead := by decide
    have hblank : IsLetters [' '] := by decide
    have haction : Passes ('\'' :: action ++ ['\'']) (' ' :: name ++ []) :=
      passes_quoted '\'' action _ (by decide) h
    exact (hlead.passes _).append (haction.append ((hblank.passes _).cons (hname.letters.passes _)))
  have htokens : tokenizeFrom 0 (single action (' ' :: name)) =
      some [.word ⟨action, .single⟩, .word (bare name)] := by
    have hnext := nextToken_single h (' ' :: name)
    have hdrop : (action ++ '\'' :: ' ' :: name).drop (action.length + 2 - 1) = ' ' :: name := by
      simp
    rw [single, List.cons_append] at hnext ⊢
    rw [tokenizeFrom_token (by decide) hnext, hdrop, hname.token]
    rfl
  rw [petrushParseList_pipeline hne hhead hlast hstart hconn, parsePipeline, hline, tokenize_trap,
    htokens]
  rfl

/-! ## Running one pipeline -/

section Run

variable {O : Outside} {dl : PList → Prog Shell (Int × PList)}

theorem arrive_undisturbed (hO : Undisturbed O) (s : Shell) : arrive O s = .ok s () := by
  show (if O.arrivals s.log = [] then pure () else _ : Prog Shell Unit) s = _
  rw [if_pos (hO s.log)]
  rfl

theorem pollSignal_idle (hO : Undisturbed O) {s : Shell} (hs : ∀ sig, s.pending sig = false)
    (sig : Nat) : pollSignal O dl sig s = .ok s () := by
  rw [pollSignal, bind_run (arrive_undisturbed hO s)]
  show (if s.pending sig = true then _ else pure () : Prog Shell Unit) s = _
  rw [if_neg (by rw [hs sig]; exact Bool.false_ne_true)]
  rfl

theorem forEach_pollSignal (hO : Undisturbed O) {s : Shell} (hs : ∀ sig, s.pending sig = false)
    (sigs : List Nat) : forEach (pollSignal O dl) sigs s = .ok s () := by
  induction sigs with
  | nil => rfl
  | cons sig sigs ih =>
      rw [forEach, bind_run (pollSignal_idle hO hs sig)]
      exact ih

theorem within_run {α : Type} {frame : Frame} {c : Prog Shell α} {s t : Shell} {a : α}
    (h : c { s with frames := frame :: s.frames } = .ok t a) :
    within frame c s = .ok { t with frames := t.frames.tail } a := by
  show (c >>= fun a => modify _ >>= fun _ => pure a) { s with frames := frame :: s.frames } = _
  rw [bind_run h]
  rfl

/-- With no signal pending a poll does nothing. -/
theorem trapsPoll_idle (hO : Undisturbed O) {s : Shell} (hs : ∀ sig, s.pending sig = false)
    (frame : Frame) : trapsPoll O dl frame s = .ok s () := by
  show (if s.inTrapPoll then pure () else _ : Prog Shell Unit) s = _
  cases hpoll : s.inTrapPoll with
  | true => rfl
  | false =>
      have hsigs := @forEach_pollSignal O dl hO
        { s with inTrapPoll := true, frames := frame :: s.frames } hs
        (List.range' 1 (trapNsig - 1))
      show (within frame (forEach (pollSignal O dl) (List.range' 1 (trapNsig - 1))) >>= fun _ =>
        modify fun s => { s with inTrapPoll := false }) { s with inTrapPoll := true } = _
      rw [bind_run (within_run hsigs)]
      show Outcome.ok { s with inTrapPoll := false } () = _
      rw [← hpoll]

theorem Ready.noted {s : Shell} (h : Ready s) (e : Event) : Ready (noted e s) :=
  ⟨h.returning, h.pending, h.builtin, ⟨h.clear.arith, h.clear.nounset⟩⟩

theorem shellAbortRaise_ready {s : Shell} (h : Ready s) : ∃ t, shellAbortRaise s = .ok t () ∧
    Ready t ∧ t.traps = s.traps :=
  ⟨{ noted .abort s with shellAbort := true }, rfl,
    ⟨h.returning, h.pending, h.builtin, ⟨h.clear.arith, h.clear.nounset⟩⟩, rfl⟩

/-- What is left to do behind the only pipeline of a list. -/
theorem dispatchList_one (hO : Undisturbed O) {n : Nat} {pl pl' : Pipeline} {s t : Shell}
    {status : Int} (hrun : dispatchPipeline O (dispatchList O n) pl s = .ok t (status, pl'))
    (ht : Ready t) : ∃ u r, dispatchList O (n + 1) (lineList pl) s = .ok u r ∧ Ready u ∧
      u.traps = t.traps := by
  have hitem : dispatchItem O (dispatchList O n) n ⟨.pipeline pl, .always, false⟩ s =
      .ok t (status, ⟨.pipeline pl', .always, false⟩) := by
    rw [dispatchItem, bind_run (arrive_undisturbed hO s)]
    show (dispatchPipeline O (dispatchList O n) pl >>= fun r => pure (r.1, _)) s = _
    rw [bind_run hrun]
    rfl
  let done := noted (.item status) { t with ctx := { t.ctx with lastStatus := status } }
  have hdone : Ready done :=
    ⟨ht.returning, ht.pending, ht.builtin, ⟨ht.clear.arith, ht.clear.nounset⟩⟩
  have herrexit : ∃ u, maybeErrexit [] status done = .ok u () ∧ Ready u ∧ u.traps = t.traps := by
    have hlook : look id done = .ok done done := rfl
    rw [maybeErrexit, bind_run hlook]
    split
    · exact shellAbortRaise_ready hdone
    · exact ⟨done, rfl, hdone, rfl⟩
  obtain ⟨u, herr, hu, htraps⟩ := herrexit
  have hrest : ∃ r, (do
      let s ← look id
      if s.shellAbort then pure (status, [⟨.pipeline pl', .always, false⟩])
      else do
        trapsPoll O (dispatchList O n) .after
        let rest ← dispatchItems O (dispatchList O n) n status false []
        pure (rest.1, ⟨.pipeline pl', .always, false⟩ :: rest.2) :
          Prog Shell (Int × List Item)) u = .ok u r := by
    show ∃ r, (if u.shellAbort = true then _ else _ : Prog Shell (Int × List Item)) u = .ok u r
    split
    · exact ⟨_, rfl⟩
    · rw [bind_run (trapsPoll_idle hO hu.pending .after)]
      exact ⟨_, rfl⟩
  obtain ⟨r, hrest⟩ := hrest
  refine ⟨u, r, ?_, hu, htraps⟩
  show (dispatchItem O (dispatchList O n) n ⟨.pipeline pl, .always, false⟩ >>= _) s = _
  rw [bind_run hitem]
  show (if done.returning = true then pure _ else _ : Prog Shell (Int × List Item)) done = _
  rw [if_neg (by rw [hdone.returning]; exact Bool.false_ne_true), bind_run herr]
  exact hrest

end Run

/-! ## The line of an action that is set -/

section Set

variable {O : Outside} {dl : PList → Prog Shell (Int × PList)}

/-- Expansion leaves inert words alone. -/
theorem expandCmdArgv_inert (w : World) (ctx : Ctx) {words : List Word}
    (h : ∀ word ∈ words, Inert word) (fx : Effects) :
    expandCmdArgv w ctx { argv := words } fx = ({ argv := words }, fx) := by
  have hargs := expandArgs_still w ctx (fun word hword => (h word hword).imp_right And.left) fx
  rw [expandCmdArgv, hargs]
  simp only [flatMap_globArg_inert w h, expandPath, expandBody]

theorem inert_trapCmd (action : Text) {name : Text} (hname : Inert (bare name)) :
    ∀ word ∈ (trapCmd action name).argv, Inert word := by
  have htrap : Inert (bare "trap".toList) := inert_bare (by decide) (by decide)
  have hdashes : Inert (bare "--".toList) := inert_bare (by decide) (by decide)
  have haction : Inert ⟨action, .single⟩ := Or.inl rfl
  simp only [trapCmd, List.forall_mem_cons, List.not_mem_nil, false_implies, implies_true, and_true]
  exact ⟨htrap, hdashes, haction, hname⟩

/-- An expansion that changes nothing. -/
theorem expanding_still {α : Type} {f : World → Ctx → Effects → α × Effects} {a : α}
    (h : ∀ w ctx fx, f w ctx fx = (a, fx)) (s : Shell) : expanding O dl f s = .ok s a := by
  show (onlyIf (s.cmdsubstDepth < cmdsubstMaxDepth) (forEach (spawnSubst dl)
    (((f (worldOf O s) s.ctx s.fx).2.log.take
      ((f (worldOf O s) s.ctx s.fx).2.log.length - s.fx.log.length)).reverse)) >>= fun _ =>
        modify (fun t => { t with fx := (f (worldOf O s) s.ctx s.fx).2 }) >>= fun _ =>
          pure (f (worldOf O s) s.ctx s.fx).1) s = _
  rw [h, Nat.sub_self, List.take_zero, List.reverse_nil]
  have hnone : onlyIf (s.cmdsubstDepth < cmdsubstMaxDepth) (forEach (spawnSubst dl) []) s =
      .ok s () := by
    unfold onlyIf
    split <;> rfl
  rw [bind_run hnone]
  rfl

theorem takeExpandErrors_clear {s : Shell} (h : Clear s) : takeExpandErrors s = .ok s false := by
  have htaken : taken s = s := by
    obtain ⟨harith, hnounset⟩ := h
    unfold taken
    cases hfx : s.fx with
    | mk arithError nounsetError log =>
        rw [hfx] at harith hnounset
        obtain rfl : arithError = false := harith
        obtain rfl : nounsetError = false := hnounset
        rw [← hfx]
  rw [takeExpandErrors_eq, htaken, h.arith, h.nounset]
  rfl

/-- A pipeline of one command that expansion leaves alone. -/
theorem dispatchPipeline_still {cmd : Cmd} (hargv : cmd.argv ≠ [])
    (hcmd : ∀ w ctx fx, expandCmdArgv w ctx cmd fx = (cmd, fx)) {s : Shell} (hs : Clear s) :
    dispatchPipeline O dl ⟨[cmd]⟩ s =
      (commandRest O dl cmd >>= fun r => pure (r.1, (⟨[r.2]⟩ : Pipeline)))
        (noted (.dispatch ⟨[cmd]⟩) s) := by
  have hstages : ∀ w ctx fx, expandCmds w ctx [cmd] fx = ([cmd], fx) := by
    intro w ctx fx
    simp only [expandCmds, hcmd]
  have hclear : Clear (noted (.dispatch ⟨[cmd]⟩) s) := ⟨hs.arith, hs.nounset⟩
  have hcommand : dispatchCommand O dl cmd (noted (.dispatch ⟨[cmd]⟩) s) =
      commandRest O dl cmd (noted (.dispatch ⟨[cmd]⟩) s) := by
    rw [dispatchCommand, if_neg hargv, bind_run (expanding_still hcmd _),
      bind_run (takeExpandErrors_clear hclear)]
    rfl
  rw [dispatchPipeline, if_neg (List.cons_ne_nil _ _)]
  show (expanding O dl (fun w ctx fx => expandCmds w ctx [cmd] fx) >>= _)
    (noted (.dispatch ⟨[cmd]⟩) s) = _
  rw [bind_run (expanding_still hstages _), bind_run (takeExpandErrors_clear hclear)]
  show (dispatchCommand O dl cmd >>= _) (noted (.dispatch ⟨[cmd]⟩) s) = _
  rw [bind_apply, bind_apply, Prog.bind, hcommand]
  rfl

/-! ### The builtin -/

theorem runBuiltin_trap {cmd : Cmd} {args : List Text}
    (hwords : words cmd = "trap".toList :: args) : runBuiltin O dl cmd = builtinTrap args := by
  have hargv : cmd.argv.map Word.text = "trap".toList :: args := hwords
  unfold runBuiltin
  rw [hargv]
  rfl

theorem announce_ready (cmd : Cmd) {s : Shell} (hs : Ready s) :
    ∃ t, announce cmd s = .ok t () ∧ Ready t ∧ t.traps = s.traps := by
  have hnoted := hs.noted (.command (words cmd))
  have htrace : ∃ t, xtracePrintCmd cmd (noted (.command (words cmd)) s) = .ok t () ∧ Ready t ∧
      t.traps = s.traps := by
    have hlook : look id (noted (.command (words cmd)) s) =
        .ok (noted (.command (words cmd)) s) (noted (.command (words cmd)) s) := rfl
    rw [xtracePrintCmd, bind_run hlook, onlyIf]
    split
    · exact ⟨_, rfl, hnoted.noted _, rfl⟩
    · exact ⟨_, rfl, hnoted, rfl⟩
  exact htrace

/-- **A command that is `trap` runs the builtin**, unless a redirection fails. -/
theorem commandRest_trap {cmd : Cmd} {args : List Text}
    (hwords : words cmd = "trap".toList :: args) {s : Shell} (hs : Ready s) {traps : TrapTable}
    (hbuiltin : ∀ u, Ready u → u.traps = s.traps →
      ∃ v rc, builtinTrap args u = .ok v rc ∧ Ready v ∧ v.traps = traps) :
    ∃ t r, commandRest O dl cmd s = .ok t r ∧ Ready t ∧
      (t.traps = traps ∨ cmdNeedsRedir cmd = true ∧ t.traps = s.traps) := by
  obtain ⟨u, hannounce, hu, htraps⟩ := announce_ready cmd hs
  have hcall : ∀ u, Ready u → u.traps = s.traps →
      ∃ v rc, callBuiltin O dl cmd u = .ok v rc ∧ Ready v ∧ v.traps = traps := by
    intro u hu htraps
    have hemit : emit (.builtin (words cmd)) u = .ok (noted (.builtin (words cmd)) u) () := rfl
    rw [callBuiltin, bind_run hemit, runBuiltin_trap hwords]
    exact hbuiltin _ (hu.noted _) htraps
  have hrun : ∃ t rc, runCommand O dl cmd u = .ok t rc ∧ Ready t ∧
      (t.traps = traps ∨ cmdNeedsRedir cmd = true ∧ t.traps = s.traps) := by
    have hlook : look id u = .ok u u := rfl
    have hknown : builtins.contains "trap".toList = true := by decide
    rw [runCommand, bind_run hlook, hwords]
    simp only [hu.builtin, hknown, if_true]
    cases hredir : cmdNeedsRedir cmd with
    | false =>
        obtain ⟨v, rc, hv, hready, htable⟩ := hcall u hu htraps
        exact ⟨v, rc, hv, hready, Or.inl htable⟩
    | true =>
        rw [if_pos rfl, runBuiltinWithRedirs, bind_run hlook]
        simp only
        cases happly : petrushApplyRedirs (O.opens u.log) cmd u.fds with
        | none => exact ⟨u, 1, rfl, hu, Or.inr ⟨trivial, htraps⟩⟩
        | some fds =>
            obtain ⟨v, rc, hv, hready, htable⟩ := hcall { u with fds := fds }
              ⟨hu.returning, hu.pending, hu.builtin, ⟨hu.clear.arith, hu.clear.nounset⟩⟩ htraps
            have hopen : modify (fun s => { s with fds := fds }) u = .ok { u with fds := fds } () := rfl
            refine ⟨{ v with fds := restoreSavedFds cmd u.fds v.fds }, rc, ?_,
              ⟨hready.returning, hready.pending, hready.builtin,
                ⟨hready.clear.arith, hready.clear.nounset⟩⟩, Or.inl htable⟩
            simp only
            rw [bind_run hopen, bind_run hv]
            rfl
  obtain ⟨t, rc, hrun, ht, hends⟩ := hrun
  refine ⟨t, (rc, cmd), ?_, ht, hends⟩
  rw [commandRest, bind_run hannounce, bind_run hrun]
  rfl

set_option maxRecDepth 4096 in
/-- Each name resolves to its slot. -/
theorem trapResolveCond_name : ∀ c ∈ trapConds, (trapResolveCond c.1).toOption = some c.2 := by
  decide

theorem slotSet_ready (slot : Nat) (action : Option Text) {s : Shell} (hs : Ready s) :
    Ready (slotSet slot action s) := by
  have hcleared : ∀ sig, update s.pending slot false sig = false := by
    intro sig
    rw [update]
    split
    · rfl
    · exact hs.pending sig
  show Ready (if slot = 0 then _ else _)
  by_cases hzero : slot = 0
  · rw [if_pos hzero]
    exact ⟨hs.returning, hs.pending, hs.builtin, ⟨hs.clear.arith, hs.clear.nounset⟩⟩
  · rw [if_neg hzero]
    cases action with
    | none => exact ⟨hs.returning, hcleared, hs.builtin, ⟨hs.clear.arith, hs.clear.nounset⟩⟩
    | some action =>
        cases action with
        | nil => exact ⟨hs.returning, hcleared, hs.builtin, ⟨hs.clear.arith, hs.clear.nounset⟩⟩
        | cons c action =>
            exact ⟨hs.returning, hs.pending, hs.builtin, ⟨hs.clear.arith, hs.clear.nounset⟩⟩

/-- The builtin sets the slot of a name. -/
theorem builtinTrap_set (action : Text) {name : Text} {slot : Nat}
    (hslot : (trapResolveCond name).toOption = some slot) {s : Shell} (hs : Ready s) :
    ∃ t, builtinTrap ["--".toList, action, name] s = .ok t 0 ∧ Ready t ∧
      t.traps = update s.traps slot (if action = ['-'] then none else some action) := by
  have hcond : trapResolveCond name = .ok slot := by
    cases hres : trapResolveCond name with
    | error err => rw [hres] at hslot; contradiction
    | ok slot' =>
        rw [hres] at hslot
        exact congrArg _ (Option.some.inj hslot)
  have hset : trapSetSlot slot (if action = ['-'] then none else some action) s =
      .ok (slotSet slot (if action = ['-'] then none else some action) s) () := rfl
  refine ⟨_, ?_, slotSet_ready slot _ hs, (slotSet_spec slot _ s).traps⟩
  show trapConditions (if action = ['-'] then none else some action) [name] s = _
  simp only [trapConditions, hcond]
  rw [bind_run hset]
  rfl

end Set

/-! ## What a line does to the table -/

/-- A line run in any shell at rest changes its table so, and leaves it at rest. -/
def Changes (O : Outside) (n : Nat) (text : Text) (f : TrapTable → TrapTable) : Prop :=
  ∀ s, Ready s → ∃ t, runText (dispatchList O (n + 1)) text s = .ok t () ∧ Ready t ∧
    t.traps = f s.traps

theorem runText_list {dl : PList → Prog Shell (Int × PList)} {text : Text} {pl : Pipeline}
    (hparse : petrushParseList text = some (lineList pl)) {s t : Shell} {r : Int × PList}
    (hrun : dl (lineList pl) s = .ok t r) : runText dl text s = .ok t () := by
  unfold runText
  rw [hparse]
  show (dl (lineList pl) >>= fun _ => pure ()) s = _
  rw [bind_run hrun]
  rfl

/-- **The line of an action without a quote** sets the slot, or resets it. -/
theorem changes_quoteless {O : Outside} (hO : Undisturbed O) (n : Nat) {action : Text}
    {c : Text × Nat} (hc : c ∈ trapConds) (h : '\'' ∉ action) :
    Changes O n (trapLine action c.1) fun traps =>
      update traps c.2 (if action = ['-'] then none else some action) := by
  intro s hs
  have hplain := trapConds_plain c hc
  have hstart : Ready (noted (.dispatch ⟨[trapCmd action c.1]⟩) s) := hs.noted _
  have hwords : words (trapCmd action c.1) = "trap".toList :: ["--".toList, action, c.1] := rfl
  obtain ⟨t, r, hrest, ht, htraps⟩ := @commandRest_trap O (dispatchList O n) _ _ hwords _ hstart _
    fun u hu htraps => by
      obtain ⟨v, hrun, hv, htable⟩ := builtinTrap_set action (trapResolveCond_name c hc) hu
      rw [htraps] at htable
      exact ⟨v, 0, hrun, hv, htable⟩
  have hargv : (trapCmd action c.1).argv ≠ [] := List.cons_ne_nil _ _
  have hpipeline := @dispatchPipeline_still O (dispatchList O n) _ hargv
    (fun w ctx fx => expandCmdArgv_inert w ctx (inert_trapCmd action hplain.inert) fx) _ hs.clear
  rw [bind_run hrest] at hpipeline
  obtain ⟨u, list, hlist, hu, hsame⟩ := dispatchList_one hO hpipeline ht
  refine ⟨u, runText_list (petrushParseList_line hplain h) hlist, hu, ?_⟩
  rw [hsame]
  rcases htraps with htraps | ⟨hredir, -⟩
  · exact htraps
  · contradiction

/-! ## The line of an action with a quote -/

/-- The token behind the first quote begins with a backslash. -/
theorem nextToken_backslash (rest : Text) : ∃ w len,
    nextToken ('\\' :: rest) = some (.word w, len) ∧ w.text.head? = some '\\' := by
  have hnext := nextToken_of_not_op (c := '\\') rest (by decide)
    fun htwo => absurd htwo (by decide)
  refine ⟨_, _, hnext, ?_⟩
  have hstop : wordStop ('\\' :: rest) = false := rfl
  rw [scanWord, scanWith_unquoted _ _ (by decide), wordLen, if_neg (by rw [hstop]; decide),
    List.take_succ_cons]
  rfl

/-- Only a `|` is read as one. -/
theorem nextToken_ne_pipe {c : Char} {s : Text} (hc : c ≠ '|') {tok : Token} {len : Nat}
    (h : nextToken (c :: s) = some (tok, len)) : tok ≠ .op .pipe := by
  have hsimple : ∀ {k len}, tryConsumeSimpleOp (c :: s) = .op k len → k ≠ .pipe := by
    intro k len hop
    unfold tryConsumeSimpleOp at hop
    split at hop
    · next heq => exact absurd (List.cons.inj heq).1 hc
    all_goals first | contradiction | (obtain ⟨rfl, -⟩ := Consumed.op.inj hop; decide)
  have herr : ∀ {k len}, tryConsumeErrRedir (c :: s) = .op k len → k ≠ .pipe := by
    intro k len hop
    unfold tryConsumeErrRedir at hop
    split at hop
    all_goals first | contradiction | skip
    · obtain ⟨rfl, -⟩ := Consumed.op.inj hop
      decide
    · split at hop
      · obtain ⟨rfl, -⟩ := Consumed.op.inj hop
        decide
      · contradiction
    · obtain ⟨rfl, -⟩ := Consumed.op.inj hop
      decide
  have hop : ∀ {k : TokKind}, k ≠ .pipe → Token.op k ≠ .op .pipe := fun hk heq =>
    hk (Token.op.inj heq)
  unfold nextToken at h
  split at h
  · obtain ⟨rfl, -⟩ := Prod.mk.inj (Option.some.inj h)
    exact Token.noConfusion
  · split at h
    · next hk =>
        obtain ⟨rfl, -⟩ := Prod.mk.inj (Option.some.inj h)
        exact hop (hsimple hk)
    · split at h
      · next hk =>
          obtain ⟨rfl, -⟩ := Prod.mk.inj (Option.some.inj h)
          exact hop (herr hk)
      · contradiction
      · obtain ⟨rfl, -⟩ := Prod.mk.inj (Option.some.inj h)
        exact Token.noConfusion

theorem pipe_not_mem (s : Text) : ∀ {skip : Nat} {toks : List Token}, '|' ∉ s →
    tokenizeFrom skip s = some toks → Token.op .pipe ∉ toks := by
  induction s with
  | nil =>
      intro skip toks _ h
      obtain rfl : [] = toks := by simpa [tokenizeFrom] using h
      exact List.not_mem_nil
  | cons c s ih =>
      intro skip toks hbar h
      rw [List.mem_cons, not_or] at hbar
      cases skip with
      | succ skip => exact ih hbar.2 h
      | zero =>
          rw [tokenizeFrom] at h
          split at h
          · exact ih hbar.2 h
          · split at h
            · contradiction
            · next tok len hnext =>
                obtain ⟨rest, hrest, rfl⟩ := Option.map_eq_some_iff.mp h
                rw [List.mem_cons, not_or]
                exact ⟨(nextToken_ne_pipe (Ne.symm hbar.1) hnext).symm, ih hbar.2 hrest⟩

/-- A `trap` whose first condition begins with a backslash. -/
def Astray (words : List Word) : Prop :=
  ∃ first word more,
    words = bare "trap".toList :: bare "--".toList :: ⟨first, .single⟩ :: word :: more ∧
      word.text.head? = some '\\'

/-- No byte of a connector. -/
def Unconnected (t : Text) : Prop := ';' ∉ t ∧ '|' ∉ t ∧ '&' ∉ t

instance (t : Text) : Decidable (Unconnected t) := inferInstanceAs (Decidable (_ ∧ _))

theorem Unconnected.noConnector {t : Text} (h : Unconnected t) : NoConnector t :=
  ⟨h.1, h.2.2, fun hin => h.2.1 (hin.subset (by decide))⟩

theorem not_mem_trapLine {x : Char} {action name : Text} (hlead : x ∉ lead)
    (hquote : x ∉ "'\\'' ".toList) (haction : x ∉ action) (hname : x ∉ name) :
    x ∉ trapLine action name := by
  have hone : x ≠ '\'' ∧ x ≠ ' ' := by
    refine ⟨?_, ?_⟩ <;> rintro rfl <;> exact hquote (by decide)
  have hfour : x ∉ "'\\''".toList := fun hmem => hquote (List.mem_append_left [' '] hmem)
  have hpieces : x ∉ action.flatMap fun c => if c = '\'' then "'\\''".toList else [c] := by
    rw [List.mem_flatMap]
    rintro ⟨c, hc, hx⟩
    split at hx
    · exact hfour hx
    · exact haction (List.mem_singleton.mp hx ▸ hc)
  rw [trapLine_eq, trapPrintQuoted]
  simp only [List.mem_append, List.mem_cons, List.not_mem_nil, or_false, not_or]
  exact ⟨hlead, ⟨⟨hone.1, hpieces⟩, hone.1⟩, hone.2, hname⟩

theorem unconnected_trapLine {action name : Text} (h : Unconnected action) (hname : Plain name) :
    Unconnected (trapLine action name) := by
  have hletters : Unconnected name := by
    have hall := List.all_eq_true.mp hname.letters
    refine ⟨fun hc => ?_, fun hc => ?_, fun hc => ?_⟩ <;> have hmem := hall _ hc <;> simp at hmem
  exact ⟨not_mem_trapLine (by decide) (by decide) h.1 hletters.1,
    not_mem_trapLine (by decide) (by decide) h.2.1 hletters.2.1,
    not_mem_trapLine (by decide) (by decide) h.2.2 hletters.2.2⟩

/-- The printed form up to the first quote of the action, and a backslash. -/
theorem exists_trapPrintQuoted {action : Text} (h : '\'' ∈ action) (rest : Text) :
    ∃ first more, '\'' ∉ first ∧
      trapPrintQuoted action ++ rest = single first ('\\' :: more) := by
  obtain ⟨first, behind, rfl, hfirst⟩ := List.eq_append_cons_of_mem h
  let quoted (t : Text) : Text := t.flatMap fun c => if c = '\'' then "'\\''".toList else [c]
  have hsame : quoted first = first := by
    have hprint : '\'' :: quoted first ++ ['\''] = '\'' :: first ++ ['\''] := trapPrintQuoted_eq hfirst
    exact (List.cons.inj (List.append_cancel_right hprint)).2
  have hsplit : trapPrintQuoted (first ++ '\'' :: behind) =
      '\'' :: quoted first ++ ("'\\''".toList ++ quoted behind) ++ ['\''] := by
    show '\'' :: quoted (first ++ '\'' :: behind) ++ ['\''] = _
    have happ : quoted (first ++ '\'' :: behind) = quoted first ++ ("'\\''".toList ++ quoted behind) := by
      show (first ++ '\'' :: behind).flatMap _ = _
      rw [List.flatMap_append, List.flatMap_cons, if_pos rfl]
    rw [happ]
    rfl
  refine ⟨first, "''".toList ++ quoted behind ++ ['\''] ++ rest, hfirst, ?_⟩
  rw [hsplit, hsame, single]
  simp

theorem tokenize_astray {first : Text} (hfirst : '\'' ∉ first) (more : Text) {toks : List Token}
    (h : tokenize (lead ++ single first ('\\' :: more)) = some toks) :
    ∃ word rest, word.text.head? = some '\\' ∧
      toks = [.word (bare "trap".toList), .word (bare "--".toList), .word ⟨first, .single⟩,
        .word word] ++ rest := by
  obtain ⟨word, len, hword, hhead⟩ := nextToken_backslash more
  have hnext := nextToken_single hfirst ('\\' :: more)
  have hdrop : (first ++ '\'' :: '\\' :: more).drop (first.length + 2 - 1) = '\\' :: more := by
    simp
  rw [single, List.cons_append] at hnext h
  rw [tokenize_trap, tokenizeFrom_token (by decide) hnext, hdrop,
    tokenizeFrom_token (by decide) hword, Option.map_map, Option.map_map] at h
  obtain ⟨rest, -, rfl⟩ := Option.map_eq_some_iff.mp h
  exact ⟨word, rest, hhead, rfl⟩

theorem pipelineOf_one {toks : List Token} (hne : toks ≠ []) (hpipe : Token.op .pipe ∉ toks)
    {pl : Pipeline} (h : pipelineOf toks = some pl) :
    ∃ cmd, pl = ⟨[cmd]⟩ ∧ buildStageFrom {} toks = some cmd := by
  have hsplit : toks.splitOnP (· == .op .pipe) = [toks] := by
    apply List.splitOnP_eq_singleton
    intro tok htok
    rw [beq_eq_false_iff_ne]
    exact fun heq => hpipe (heq ▸ htok)
  rw [pipelineOf, if_neg hne, hsplit] at h
  obtain ⟨cmds, hcmds, rfl⟩ := Option.map_eq_some_iff.mp h
  cases hbuild : buildStage toks with
  | none => simp [hbuild] at hcmds
  | some cmd =>
      obtain rfl : [cmd] = cmds := by simpa [hbuild] using hcmds
      refine ⟨cmd, rfl, ?_⟩
      unfold buildStage at hbuild
      split at hbuild
      · contradiction
      · next cmd' hfrom =>
          split at hbuild
          · contradiction
          · rw [hfrom, Option.some.inj hbuild]

theorem parsePipeline_astray {line first more : Text} {pl : Pipeline}
    (hline : line = lead ++ single first ('\\' :: more)) (hfirst : '\'' ∉ first)
    (hbar : '|' ∉ line) (h : parsePipeline line = some pl) :
    ∃ cmd, pl = ⟨[cmd]⟩ ∧ Astray cmd.argv := by
  obtain ⟨toks, htoks, hpl⟩ := Option.bind_eq_some_iff.mp h
  have hpipe := pipe_not_mem line hbar htoks
  rw [hline] at htoks
  obtain ⟨word, rest, hhead, rfl⟩ := tokenize_astray hfirst more htoks
  obtain ⟨cmd, rfl, hbuild⟩ := pipelineOf_one (by simp) hpipe hpl
  have hfour : buildStageFrom { argv := [bare "trap".toList, bare "--".toList, ⟨first, .single⟩,
      word] } rest = some cmd := hbuild
  obtain ⟨behind, hargv⟩ := argv_prefix_of_buildStageFrom _ _ _ hfour
  exact ⟨cmd, rfl, first, word, behind, hargv.symm, hhead⟩

/-- **The line of an action with a quote** is nothing, or a command that goes astray. -/
theorem petrushParseList_astray {action name : Text} (hname : Plain name) (h : '\'' ∈ action)
    (hcode : Unconnected action) : petrushParseList (trapLine action name) = none ∨
      ∃ cmd, petrushParseList (trapLine action name) = some (lineList ⟨[cmd]⟩) ∧
        Astray cmd.argv := by
  obtain ⟨hne, hhead, hlast⟩ := trapLine_ends action hname
  have hunconnected := unconnected_trapLine hcode hname
  obtain ⟨first, more, hfirst, hprint⟩ := exists_trapPrintQuoted h (' ' :: name)
  have hline : trapLine action name = lead ++ single first ('\\' :: more) := by
    rw [trapLine_eq, hprint]
  have hstart : startsCompound ⟨[], trapLine action name⟩ = false := by
    rw [trapLine_eq]
    exact startsCompound_trap _
  rw [petrushParseList_pipeline hne hhead hlast hstart
    (findFrom_noConnector _ hunconnected.noConnector _ _ _ _)]
  cases hparse : parsePipeline (trapLine action name) with
  | none => exact Or.inl rfl
  | some pl =>
      obtain ⟨cmd, rfl, hastray⟩ := parsePipeline_astray hline hfirst hunconnected.2.1 hparse
      exact Or.inr ⟨cmd, rfl, hastray⟩

/-! ### Running it -/

/-- No directory can be read. -/
def Unlisted (w : World) : Prop := w.listing = fun _ => none

theorem globArg_unlisted {w : World} (hw : Unlisted w) (word : Word) : globArg w word = [word] := by
  have hsame : globWord w.listing word.text = some [word.text] := by
    unfold globWord
    rw [hw]
    split
    · rfl
    · split
      · rfl
      · split <;> rfl
  rw [globArg]
  split
  · rfl
  · rw [hsame]
    exact if_pos rfl

/-- A word keeps its backslash. -/
theorem expandArg_backslash (w : World) (ctx : Ctx) {word : Word}
    (h : word.text.head? = some '\\') (fx : Effects) :
    ∃ word', (expandArg w ctx word fx).1 = [word'] ∧ word'.text.head? = some '\\' := by
  obtain ⟨text, quoted⟩ := word
  cases text with
  | nil => contradiction
  | cons c t =>
      obtain rfl : c = '\\' := Option.some.inj h
      by_cases hsingle : quoted = .single
      · exact ⟨_, by rw [expandArg, if_pos hsingle], rfl⟩
      · refine ⟨⟨(expandWord w ctx ('\\' :: t) fx).1, quoted⟩, ?_, ?_⟩
        · have hstar : ('\\' :: t : Text) ≠ "$*".toList := by simp
          have hat : ('\\' :: t : Text) ≠ "$@".toList := by simp
          rw [expandArg, if_neg hsingle, if_neg (fun hc => hstar hc.1),
            if_neg (by rintro (hc | hc) <;> [exact hat hc; exact hstar hc])]
        · have htilde : isTilde ('\\' :: t) = false := rfl
          rw [expandWord_eq w ctx htilde]
          rfl

theorem astray_expanded {w : World} (hw : Unlisted w) (ctx : Ctx) {cmd : Cmd}
    (h : Astray cmd.argv) (fx : Effects) : Astray (expandCmdArgv w ctx cmd fx).1.argv := by
  obtain ⟨first, word, more, hargv, hhead⟩ := h
  have hsame : ∀ words : List Word, words.flatMap (globArg w) = words := by
    intro words
    have hglob : globArg w = fun word => [word] := funext (globArg_unlisted hw)
    rw [hglob, List.flatMap_singleton']
  have htrap : ∀ fx, expandArg w ctx (bare "trap".toList) fx = ([bare "trap".toList], fx) :=
    expandArg_still w ctx (Or.inr (by decide))
  have hdashes : ∀ fx, expandArg w ctx (bare "--".toList) fx = ([bare "--".toList], fx) :=
    expandArg_still w ctx (Or.inr (by decide))
  have hfirst : ∀ fx, expandArg w ctx ⟨first, .single⟩ fx = ([⟨first, .single⟩], fx) :=
    expandArg_still w ctx (Or.inl rfl)
  obtain ⟨word', hword, hhead'⟩ := expandArg_backslash w ctx hhead fx
  have hargs : (expandArgs w ctx cmd.argv fx).1 =
      bare "trap".toList :: bare "--".toList :: ⟨first, .single⟩ :: word' ::
        (expandArgs w ctx more (expandArg w ctx word fx).2).1 := by
    rw [hargv]
    simp only [expandArgs, htrap, hdashes, hfirst, hword, List.cons_append, List.nil_append]
  refine ⟨first, word', (expandArgs w ctx more (expandArg w ctx word fx).2).1, ?_, hhead'⟩
  show (expandArgs w ctx cmd.argv fx).1.flatMap (globArg w) = _
  rw [hsame, hargs]

/-- No name of a condition begins with a backslash. -/
theorem trapResolveCond_backslash {cond : Text} (h : cond.head? = some '\\') :
    ∃ err, trapResolveCond cond = .error err := by
  cases cond with
  | nil => contradiction
  | cons c t =>
      obtain rfl : c = '\\' := Option.some.inj h
      have hnames : ∀ c ∈ trapConds, c.1.head? ≠ some '\\' := by decide
      have hfind : trapConds.find? (fun c => c.1 == '\\' :: t) = none := by
        rw [List.find?_eq_none]
        intro c hc heq
        exact hnames c hc (by rw [eq_of_beq heq]; rfl)
      have hnumber : parseLong ('\\' :: t) = none := by
        have hread : strtol ('\\' :: t) = ⟨0, '\\' :: t, false⟩ := rfl
        rw [parseLong, hread]
        simp
      have hstrip : stripSig ('\\' :: t) = '\\' :: t := rfl
      refine ⟨.invalid, ?_⟩
      simp [trapResolveCond, hstrip, hnumber, hfind]

/-- The builtin refuses the condition. -/
theorem builtinTrap_astray {first : Text} {cond : Text} (h : cond.head? = some '\\')
    (conds : List Text) {s : Shell} (hs : Ready s) :
    ∃ t rc, builtinTrap ("--".toList :: first :: cond :: conds) s = .ok t rc ∧ Ready t ∧
      t.traps = s.traps := by
  obtain ⟨err, hcond⟩ := trapResolveCond_backslash h
  obtain ⟨t, habort, ht, htraps⟩ := shellAbortRaise_ready hs
  refine ⟨t, 1, ?_, ht, htraps⟩
  show trapConditions _ (cond :: conds) s = _
  simp only [trapConditions, hcond]
  rw [bind_run habort]
  rfl

theorem Ready.settled {s t : Shell} {aborts : Bool} (h : Ready s) (hst : Settled s t aborts) :
    Ready t ∧ t.traps = s.traps := by
  rw [hst.rest]
  exact ⟨⟨h.returning, h.pending, h.builtin, ⟨hst.clear.arith, hst.clear.nounset⟩⟩, rfl⟩

section Astray

variable {O : Outside} {dl : PList → Prog Shell (Int × PList)}

theorem commandRest_astray {cmd : Cmd} (h : Astray cmd.argv) {s : Shell} (hs : Ready s) :
    ∃ t r, commandRest O dl cmd s = .ok t r ∧ Ready t ∧ t.traps = s.traps := by
  obtain ⟨first, word, more, hargv, hhead⟩ := h
  have hwords : words cmd =
      "trap".toList :: "--".toList :: first :: word.text :: more.map Word.text := by
    rw [words, hargv]
    rfl
  have hbuiltin : ∀ u, Ready u → u.traps = s.traps → ∃ v rc,
      builtinTrap ("--".toList :: first :: word.text :: more.map Word.text) u = .ok v rc ∧
        Ready v ∧ v.traps = s.traps := by
    intro u hu htraps
    obtain ⟨v, rc, hrun, hv, htable⟩ := builtinTrap_astray hhead (more.map Word.text) hu
    exact ⟨v, rc, hrun, hv, htable.trans htraps⟩
  obtain ⟨t, r, hrun, ht, htraps⟩ := @commandRest_trap O dl _ _ hwords _ hs _ hbuiltin
  exact ⟨t, r, hrun, ht, htraps.elim id And.right⟩

/-- A pipeline that goes astray leaves the table as it is. -/
theorem dispatchPipeline_astray (hdl : ∀ l, Keeps Stays Grew (dl l))
    (hO : ∀ log dir, O.listing log dir = none) {cmd : Cmd} (h : Astray cmd.argv) {s : Shell}
    (hs : Ready s) : ∃ t r, dispatchPipeline O dl ⟨[cmd]⟩ s = .ok t r ∧ Ready t ∧
      t.traps = s.traps := by
  have hunlisted : ∀ u, Unlisted (worldOf O u) := fun u => funext (hO u.log)
  have hcmds : (⟨[cmd]⟩ : Pipeline).cmds ≠ [] := List.cons_ne_nil _ _
  obtain ⟨hfirst, hrun⟩ := dispatchPipeline_spec (O := O) hdl hs.clear hcmds
  obtain ⟨hready, htraps⟩ := (hs.noted (.dispatch ⟨[cmd]⟩)).settled hfirst
  have hastray := astray_expanded (hunlisted (noted (.dispatch ⟨[cmd]⟩) s)) s.ctx h s.fx
  rw [hrun]
  split
  · exact ⟨_, _, rfl, hready, htraps⟩
  · generalize (checked O dl (stagesExpansion ⟨[cmd]⟩) (noted (.dispatch ⟨[cmd]⟩) s)).state = t at *
    have hone : (stagesExpansion ⟨[cmd]⟩ (worldOf O (noted (.dispatch ⟨[cmd]⟩) s)) s.ctx s.fx).1 =
        [(expandCmdArgv (worldOf O (noted (.dispatch ⟨[cmd]⟩) s)) s.ctx cmd s.fx).1] := rfl
    rw [hone]
    generalize (expandCmdArgv (worldOf O (noted (.dispatch ⟨[cmd]⟩) s)) s.ctx cmd s.fx).1 = cmd' at *
    have hargv : cmd'.argv ≠ [] := by
      obtain ⟨first, word, more, hargv, -⟩ := hastray
      rw [hargv]
      exact List.cons_ne_nil _ _
    obtain ⟨hsecond, hcommand⟩ := dispatchCommand_spec (O := O) hdl hready.clear hargv
    obtain ⟨hready', htraps'⟩ := hready.settled hsecond
    have hastray' := astray_expanded (hunlisted t) t.ctx hastray t.fx
    have hends : ∃ u r, dispatchCommand O dl cmd' t = .ok u r ∧ Ready u ∧ u.traps = s.traps := by
      rw [hcommand]
      split
      · exact ⟨_, _, rfl, hready', htraps'.trans htraps⟩
      · obtain ⟨u, r, hrest, hu, hsame⟩ := @commandRest_astray O dl _ hastray' _ hready'
        exact ⟨u, r, hrest, hu, hsame.trans (htraps'.trans htraps)⟩
    obtain ⟨u, r, hends, hu, hsame⟩ := hends
    refine ⟨u, (r.1, ⟨[r.2]⟩), ?_, hu, hsame⟩
    show (dispatchCommand O dl cmd' >>= fun r => pure (r.1, (⟨[r.2]⟩ : Pipeline))) t = _
    rw [bind_run hends]
    rfl

end Astray

/-- **The line of an action with a quote** leaves the table as it is. -/
theorem changes_astray {O : Outside} (hO : Undisturbed O)
    (hlisting : ∀ log dir, O.listing log dir = none) (n : Nat) {action : Text} {c : Text × Nat}
    (hc : c ∈ trapConds) (h : '\'' ∈ action) (hcode : Unconnected action) :
    Changes O n (trapLine action c.1) id := by
  intro s hs
  rcases petrushParseList_astray (trapConds_plain c hc) h hcode with hnone | ⟨cmd, hparse, hastray⟩
  · refine ⟨s, ?_, hs, rfl⟩
    unfold runText
    rw [hnone]
    rfl
  · obtain ⟨t, r, hrun, ht, htraps⟩ := dispatchPipeline_astray (O := O)
      (fun l => dispatchList_grew O n l) hlisting hastray hs
    obtain ⟨u, list, hlist, hu, hsame⟩ := dispatchList_one hO hrun ht
    exact ⟨u, runText_list hparse hlist, hu, hsame.trans htraps⟩

/-! ## The whole dump -/

/-- What is left of a table: the actions that are read back. -/
def kept (traps : TrapTable) : TrapTable := fun slot =>
  if slot ∈ trapConds.map Prod.snd then (traps slot).filter fun action => decide (Readable action)
  else none

/-- The lines of some of the slots. -/
def linesOf (traps : TrapTable) (conds : List (Text × Nat)) : List Text :=
  conds.filterMap fun c => (traps c.2).map fun action => trapLine action c.1

theorem trapDump_eq (traps : TrapTable) : trapDump traps = linesOf traps trapConds := rfl

/-- What one line does. -/
def lineEffect (action : Text) (slot : Nat) (traps : TrapTable) : TrapTable :=
  if '\'' ∈ action then traps
  else update traps slot (if action = ['-'] then none else some action)

theorem kept_some {traps : TrapTable} {c : Text × Nat} (hc : c ∈ trapConds) {action : Text}
    (h : traps c.2 = some action) :
    kept traps c.2 = if Readable action then some action else none := by
  rw [kept, if_pos (List.mem_map_of_mem hc), h]
  by_cases hread : Readable action <;> simp [hread]

theorem kept_none {traps : TrapTable} {slot : Nat} (h : traps slot = none) :
    kept traps slot = none := by
  rw [kept, h]
  split <;> rfl

theorem lineEffect_self {traps table : TrapTable} {c : Text × Nat} (hc : c ∈ trapConds)
    {action : Text} (h : traps c.2 = some action)
    (htable : table c.2 = none ∨ table c.2 = kept traps c.2) :
    lineEffect action c.2 table c.2 = kept traps c.2 := by
  have hkept := kept_some hc h
  rw [lineEffect]
  by_cases hquote : '\'' ∈ action
  · have hnone : kept traps c.2 = none := by rw [hkept, if_neg fun hread => hread.1 hquote]
    rw [if_pos hquote, hnone]
    rw [hnone] at htable
    exact htable.elim id id
  · rw [if_neg hquote, update, if_pos rfl, hkept]
    by_cases hdash : action = ['-']
    · rw [if_pos hdash, if_neg fun hread => hread.2 hdash]
    · rw [if_neg hdash, if_pos ⟨hquote, hdash⟩]

theorem lineEffect_other (action : Text) {slot other : Nat} (h : other ≠ slot)
    (table : TrapTable) : lineEffect action slot table other = table other := by
  rw [lineEffect]
  split
  · rfl
  · rw [update, if_neg h]

/-- **The lines one after the other**: each leaves its slot with what is kept. -/
theorem forEach_linesOf {O : Outside} {n : Nat} {traps : TrapTable} (conds : List (Text × Nat))
    (hsub : ∀ c ∈ conds, c ∈ trapConds)
    (hline : ∀ c ∈ conds, ∀ action, traps c.2 = some action →
      Changes O n (trapLine action c.1) (lineEffect action c.2)) :
    ∀ {s : Shell}, Ready s → (∀ slot, s.traps slot = none ∨ s.traps slot = kept traps slot) →
      ∃ t, forEach (runText (dispatchList O (n + 1))) (linesOf traps conds) s = .ok t () ∧ Ready t ∧
        ∀ slot, t.traps slot =
          if slot ∈ conds.map Prod.snd then kept traps slot else s.traps slot := by
  induction conds with
  | nil => exact fun hs _ => ⟨_, rfl, hs, fun _ => rfl⟩
  | cons c conds ih =>
      rw [List.forall_mem_cons] at hsub hline
      intro s hs htable
      have hfirst : ∃ u, (linesOf traps (c :: conds) = linesOf traps conds ∧ u = s ∨
          ∃ line, linesOf traps (c :: conds) = line :: linesOf traps conds ∧
            runText (dispatchList O (n + 1)) line s = .ok u ()) ∧ Ready u ∧
          u.traps c.2 = kept traps c.2 ∧ ∀ slot, slot ≠ c.2 → u.traps slot = s.traps slot := by
        cases haction : traps c.2 with
        | none =>
            refine ⟨s, Or.inl ⟨?_, rfl⟩, hs, ?_, fun _ _ => rfl⟩
            · simp only [linesOf, List.filterMap_cons, haction, Option.map_none]
            · have hnone := kept_none haction
              have hslot := htable c.2
              rw [hnone] at hslot ⊢
              exact hslot.elim id id
        | some action =>
            obtain ⟨u, hrun, hu, htraps⟩ := hline.1 action haction s hs
            refine ⟨u, Or.inr ⟨trapLine action c.1, ?_, hrun⟩, hu, ?_, ?_⟩
            · simp only [linesOf, List.filterMap_cons, haction, Option.map_some]
            · rw [htraps]
              exact lineEffect_self hsub.1 haction (htable c.2)
            · intro slot hslot
              rw [htraps]
              exact lineEffect_other action hslot s.traps
      obtain ⟨u, hlines, hu, hself, hother⟩ := hfirst
      have hstart : ∀ slot, u.traps slot = none ∨ u.traps slot = kept traps slot := by
        intro slot
        by_cases hslot : slot = c.2
        · exact Or.inr (hslot ▸ hself)
        · rw [hother slot hslot]
          exact htable slot
      obtain ⟨t, hrest, ht, hends⟩ := ih hsub.2 hline.2 hu hstart
      refine ⟨t, ?_, ht, ?_⟩
      · rcases hlines with ⟨hsame, rfl⟩ | ⟨line, hcons, hrun⟩
        · rw [hsame]
          exact hrest
        · rw [hcons, forEach, bind_run hrun]
          exact hrest
      · intro slot
        rw [hends slot, List.map_cons]
        by_cases hmem : slot ∈ conds.map Prod.snd
        · rw [if_pos hmem, if_pos (List.mem_cons_of_mem _ hmem)]
        · rw [if_neg hmem]
          by_cases hslot : slot = c.2
          · rw [if_pos (hslot ▸ List.mem_cons_self), hslot, hself]
          · rw [if_neg fun h => (List.mem_cons.mp h).elim hslot hmem, hother slot hslot]

/-- Every action with a quote is free of connectors. -/
def QuotesUnconnected (traps : TrapTable) : Prop :=
  ∀ slot action, traps slot = some action → '\'' ∈ action → Unconnected action

/-- **The table that is left** in a shell without traps. -/
theorem dumpRun_traps {O : Outside} (hO : Undisturbed O) {traps : TrapTable}
    (hcode : (∀ slot action, traps slot = some action → '\'' ∉ action) ∨
      QuotesUnconnected traps ∧ ∀ log dir, O.listing log dir = none) (n : Nat) {s : Shell}
    (hs : Ready s) (hempty : s.traps = fun _ => none) :
    ∃ t, dumpRun O n traps s = .ok t () ∧ t.traps = kept traps := by
  have hline : ∀ c ∈ trapConds, ∀ action, traps c.2 = some action →
      Changes O n (trapLine action c.1) (lineEffect action c.2) := by
    intro c hc action haction
    by_cases hquote : '\'' ∈ action
    · have heffect : lineEffect action c.2 = id := funext fun table => if_pos hquote
      obtain hfree | ⟨hfree, hlisting⟩ := hcode
      · exact absurd hquote (hfree c.2 action haction)
      · rw [heffect]
        exact changes_astray hO hlisting n hc hquote (hfree c.2 action haction hquote)
    · have heffect : lineEffect action c.2 = fun table =>
          update table c.2 (if action = ['-'] then none else some action) :=
        funext fun table => if_neg hquote
      rw [heffect]
      exact changes_quoteless hO n hc hquote
  obtain ⟨t, hrun, -, hends⟩ := forEach_linesOf trapConds (fun _ => id) hline hs
    fun slot => Or.inl (congrFun hempty slot)
  refine ⟨t, hrun, funext fun slot => ?_⟩
  rw [hends slot]
  split
  · rfl
  · next hslot => rw [hempty, kept, if_neg hslot]

/-- Each action has a slot with a name, has no quote and is not `-`. -/
def Quoteless (traps : TrapTable) : Prop :=
  ∀ slot action, traps slot = some action →
    slot ∈ trapConds.map Prod.snd ∧ '\'' ∉ action ∧ action ≠ ['-']

theorem kept_eq_iff (traps : TrapTable) : kept traps = traps ↔ Quoteless traps := by
  constructor
  · intro h slot action haction
    have hkept := congrFun h slot
    rw [haction, kept, haction] at hkept
    split at hkept
    · next hslot =>
        have hread := (Option.filter_eq_some_iff.mp hkept).2
        exact ⟨hslot, of_decide_eq_true hread⟩
    · contradiction
  · intro h
    funext slot
    cases haction : traps slot with
    | none => exact kept_none haction
    | some action =>
        obtain ⟨hslot, hread⟩ := h slot action haction
        rw [kept, if_pos hslot, haction, Option.filter_eq_some_iff]
        exact ⟨rfl, decide_eq_true hread⟩

/-- Reading back in a shell that has just started, with no directory to read. -/
theorem ReadsBack.kept_eq {traps : TrapTable} (h : ReadsBack traps)
    (hcode : QuotesUnconnected traps) : kept traps = traps := by
  have hstart : Ready (Shell.start ⟨fun _ => none, [], [], false, false, false, 0⟩ fun _ => .dfl) :=
    ⟨rfl, fun _ => rfl, rfl, ⟨rfl, rfl⟩⟩
  obtain ⟨t, hrun, htraps⟩ := h Outside.quiet 0 _ (fun _ => rfl) hstart rfl
  obtain ⟨u, hrun', hkept⟩ := dumpRun_traps (O := Outside.quiet) (fun _ => rfl)
    (Or.inr ⟨hcode, fun _ _ => rfl⟩) 0 hstart rfl
  obtain ⟨rfl, -⟩ := Outcome.ok.inj (hrun.symm.trans hrun')
  rw [← hkept, htraps]

/-- **A table is read back** when no action has a quote or is `-`.  With a quote the line
goes on as shell code; as long as that has no connector, the table is lost. -/
theorem readsBack_iff (traps : TrapTable) : (Quoteless traps → ReadsBack traps) ∧
    (QuotesUnconnected traps → (ReadsBack traps ↔ Quoteless traps)) := by
  have hback : Quoteless traps → ReadsBack traps := by
    intro h O n s hO hs hempty
    have hfree : ∀ slot action, traps slot = some action → '\'' ∉ action :=
      fun slot action haction => (h slot action haction).2.1
    obtain ⟨t, hrun, htraps⟩ := dumpRun_traps hO (Or.inl hfree) n hs hempty
    exact ⟨t, hrun, htraps.trans ((kept_eq_iff traps).mpr h)⟩
  exact ⟨hback, fun hcode => ⟨fun h => (kept_eq_iff traps).mp (h.kept_eq hcode), hback⟩⟩

/-- The table with one action, for SIGINT. -/
def onInt (action : Text) : TrapTable := update (fun _ => none) sigint (some action)

theorem onInt_action {action other : Text} {slot : Nat} (h : onInt action slot = some other) :
    other = action := by
  rw [onInt, update] at h
  split at h
  · exact (Option.some.inj h).symm
  · contradiction

/-- **A quote loses the action**: `trap "echo 'bye'" INT` is printed as
`trap -- 'echo '\''bye'\''' INT`, and reading this sets nothing. -/
theorem quote_lost : trapDump (onInt "echo 'bye'".toList) =
      ["trap -- 'echo '\\''bye'\\''' INT".toList] ∧
    ¬ ReadsBack (onInt "echo 'bye'".toList) := by
  refine ⟨by decide +kernel, fun h => ?_⟩
  have hcode : QuotesUnconnected (onInt "echo 'bye'".toList) := by
    intro slot action haction _
    obtain rfl := onInt_action haction
    decide
  have hfree := (kept_eq_iff _).mp (h.kept_eq hcode) sigint "echo 'bye'".toList rfl
  exact hfree.2.1 (by decide)

end Petrush.Verified.TrapDump
