import Petrush.Mid.Ast

/-!
# Here-document bodies (`parser.c`, the last part; `source.c`, `fill_heredocs`)

After a command line its here-document lines are fed to the syntax tree one by
one.  The feeder keeps no position: at each line it looks for the first command
that still waits for one.

The C functions return -1, or a number of which the callers only use the sign,
and set `*ate`; here they return `none`, or `*ate` with the tree.
-/

namespace Petrush.Mid.Heredoc

open Petrush.Lib.CText
open Petrush.Mid.Ast

/-! ## Pending documents -/

/-- `cmd_heredoc_pending`. -/
def cmdHeredocPending (cmd : Cmd) : Bool :=
  cmd.hereDelim.isSome && decide (cmd.hereFeedI < cmd.hereSkipDelims.length + 1)

mutual

/-- `item_heredoc_pending`, on the payload. -/
def kindHeredocPending : ItemKind → Bool
  | .pipeline pl => pl.cmds.any cmdHeredocPending
  | .ifc arms => ifArmsHeredocPending arms
  | .wh cond body => listHeredocPending cond || listHeredocPending body
  | .fr _ _ body => listHeredocPending body
  | .fn _ body => listHeredocPending body
  | .cs _ arms => caseArmsHeredocPending arms
  | .db _ => false

/-- `item_heredoc_pending`. -/
def itemHeredocPending : Item → Bool
  | ⟨kind, _, _⟩ => kindHeredocPending kind

def ifArmHeredocPending : IfArm → Bool
  | ⟨cond, body, _⟩ => listHeredocPending cond || listHeredocPending body

def ifArmsHeredocPending : List IfArm → Bool
  | [] => false
  | arm :: arms => ifArmHeredocPending arm || ifArmsHeredocPending arms

def caseArmHeredocPending : CaseArm → Bool
  | ⟨_, body⟩ => listHeredocPending body

def caseArmsHeredocPending : List CaseArm → Bool
  | [] => false
  | arm :: arms => caseArmHeredocPending arm || caseArmsHeredocPending arms

/-- `list_heredoc_pending`. -/
def listHeredocPending : List Item → Bool
  | [] => false
  | it :: items => itemHeredocPending it || listHeredocPending items

end

/-! ## Feeding one command -/

/-- `PETRUSH_HEREDOC_MAX`. -/
def heredocMax : Nat := 1024 * 1024

/-- `cmd_current_delim`. -/
def cmdCurrentDelim (cmd : Cmd) : Option Text :=
  if cmd.hereFeedI < cmd.hereSkipDelims.length then cmd.hereSkipDelims[cmd.hereFeedI]?
  else if cmd.hereFeedI = cmd.hereSkipDelims.length then cmd.hereDelim
  else none

/-- `here_body_append`. -/
def hereBodyAppend (cmd : Cmd) (line : Text) : Option Cmd :=
  let old := cmd.hereBody.getD []
  if old.length + line.length + 1 > heredocMax then none
  else some { cmd with hereBody := some (old ++ line ++ ['\n']) }

/-- What `<<-` does to a line. -/
def stripTabs (strip : Bool) (line : Text) : Text :=
  if strip then line.dropWhile (· == '\t') else line

/-- A delimiter line ends the document being read. -/
def closeHeredoc (cmd : Cmd) : Cmd :=
  if cmd.hereFeedI = cmd.hereSkipDelims.length then
    { cmd with hereBody := some (cmd.hereBody.getD []), hereFeedI := cmd.hereFeedI + 1 }
  else { cmd with hereBody := none, hereFeedI := cmd.hereFeedI + 1 }

/-- `cmd_heredoc_feed`; no line stands for the end of the file. -/
def cmdHeredocFeed (cmd : Cmd) (line : Option Text) : Option (Bool × Cmd) :=
  if !cmdHeredocPending cmd then some (false, cmd)
  else
    match line, cmdCurrentDelim cmd with
    | some line, some delim =>
        let line := stripTabs cmd.hereStrip line
        if line = delim then some (true, closeHeredoc cmd)
        else (hereBodyAppend cmd line).map (true, ·)
    | _, _ => none

/-! ## Feeding a tree -/

/-- The command loop of `item_heredoc_feed`. -/
def cmdsHeredocFeed : List Cmd → Option Text → Option (Bool × List Cmd)
  | [], _ => some (false, [])
  | cmd :: cmds, line =>
      if cmdHeredocPending cmd then
        (cmdHeredocFeed cmd line).map fun (ate, cmd) => (ate, cmd :: cmds)
      else (cmdsHeredocFeed cmds line).map fun (ate, cmds) => (ate, cmd :: cmds)

/-- One part and, unless it ate the line, the next one. -/
def feedBoth {α β : Type} (feedA : Option (Bool × α)) (b : β) (feedB : Option (Bool × β)) :
    Option (Bool × α × β) :=
  match feedA with
  | none => none
  | some (true, a) => some (true, a, b)
  | some (false, a) => feedB.map fun (ate, b) => (ate, a, b)

mutual

/-- `item_heredoc_feed`, on the payload. -/
def kindHeredocFeed (line : Option Text) : ItemKind → Option (Bool × ItemKind)
  | .pipeline pl => (cmdsHeredocFeed pl.cmds line).map fun (ate, cmds) => (ate, .pipeline ⟨cmds⟩)
  | .ifc arms => (ifArmsHeredocFeed line arms).map fun (ate, arms) => (ate, .ifc arms)
  | .wh cond body =>
      (feedBoth (listHeredocFeed line cond) body (listHeredocFeed line body)).map
        fun (ate, cond, body) => (ate, .wh cond body)
  | .fr name words body =>
      (listHeredocFeed line body).map fun (ate, body) => (ate, .fr name words body)
  | .fn name body => (listHeredocFeed line body).map fun (ate, body) => (ate, .fn name body)
  | .cs word arms => (caseArmsHeredocFeed line arms).map fun (ate, arms) => (ate, .cs word arms)
  | .db argv => some (false, .db argv)

/-- `item_heredoc_feed`. -/
def itemHeredocFeed (line : Option Text) : Item → Option (Bool × Item)
  | ⟨kind, cond, bg⟩ => (kindHeredocFeed line kind).map fun (ate, kind) => (ate, ⟨kind, cond, bg⟩)

def ifArmHeredocFeed (line : Option Text) : IfArm → Option (Bool × IfArm)
  | ⟨cond, body, isElse⟩ =>
      (feedBoth (listHeredocFeed line cond) body (listHeredocFeed line body)).map
        fun (ate, cond, body) => (ate, ⟨cond, body, isElse⟩)

def ifArmsHeredocFeed (line : Option Text) : List IfArm → Option (Bool × List IfArm)
  | [] => some (false, [])
  | arm :: arms =>
      (feedBoth (ifArmHeredocFeed line arm) arms (ifArmsHeredocFeed line arms)).map
        fun (ate, arm, arms) => (ate, arm :: arms)

def caseArmHeredocFeed (line : Option Text) : CaseArm → Option (Bool × CaseArm)
  | ⟨patterns, body⟩ => (listHeredocFeed line body).map fun (ate, body) => (ate, ⟨patterns, body⟩)

def caseArmsHeredocFeed (line : Option Text) : List CaseArm → Option (Bool × List CaseArm)
  | [] => some (false, [])
  | arm :: arms =>
      (feedBoth (caseArmHeredocFeed line arm) arms (caseArmsHeredocFeed line arms)).map
        fun (ate, arm, arms) => (ate, arm :: arms)

/-- `list_heredoc_feed`: the first item that waits for a line. -/
def listHeredocFeed (line : Option Text) : List Item → Option (Bool × List Item)
  | [] => some (false, [])
  | it :: items =>
      if itemHeredocPending it then
        (itemHeredocFeed line it).map fun (ate, it) => (ate, it :: items)
      else (listHeredocFeed line items).map fun (ate, items) => (ate, it :: items)

end

/-- `petrush_heredoc_feed_line`: -1, 1 while a document waits for lines, else 0. -/
def petrushHeredocFeedLine (list : PList) (line : Option Text) : Int × PList :=
  if !listHeredocPending list then (0, list)
  else
    match listHeredocFeed line list with
    | none => (-1, list)
    | some (_, list') =>
        if line = none ∧ listHeredocPending list' then (-1, list')
        else (if listHeredocPending list' then 1 else 0, list')

/-- The loop of `fill_heredocs` on the lines left of the file (without their
newlines): the filled list with the lines after it, or `none` when it returns 1.
The flag tells that the end of the file was met (it returns 2). -/
def fillHeredocs : PList → List Text → Option (PList × Bool × List Text)
  | list, [] =>
      if !listHeredocPending list then some (list, false, [])
      else if (petrushHeredocFeedLine list none).1 < 0 then none
      else some ((petrushHeredocFeedLine list none).2, true, [])
  | list, line :: lines =>
      if !listHeredocPending list then some (list, false, line :: lines)
      else if (petrushHeredocFeedLine list (some line)).1 < 0 then none
      else fillHeredocs (petrushHeredocFeedLine list (some line)).2 lines

end Petrush.Mid.Heredoc
