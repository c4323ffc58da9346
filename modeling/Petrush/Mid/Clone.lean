import Petrush.Lib.Cells
import Petrush.Mid.Ast

/-!
# The syntax tree in memory, and its copy (`parser.h`, `clone_list`)

The structures of `parser.h` with their pointers and counts: `NULL` is `none`, an array
is the list of its cells, an `int` that is a flag is an integer.  An item has the
payloads of all kinds, and those that its kind does not select are zero.

`listTree` is the tree (`Ast`) that the dispatcher, the expansion, the redirections and
the here-documents read from a structure.

Memory is never short here.
-/

namespace Petrush.Mid.Clone

open Petrush.Lib.CText
open Petrush.Lib.Cells
open Petrush.Mid.Ast

/-! ## Structures -/

/-- `petrush_cmd_t`. -/
structure PetrushCmd where
  argv : Option (List (Option Text)) := none
  argc : Nat := 0
  argvQuoted : Option (List Int) := none
  redirIn : Option Text := none
  redirOut : Option Text := none
  redirAppend : Int := 0
  redirErr : Option Text := none
  redirErrAppend : Int := 0
  redirErrToOut : Int := 0
  hereDelim : Option Text := none
  hereBody : Option Text := none
  hereQuoted : Int := 0
  hereStrip : Int := 0
  hereSkipDelims : Option (List (Option Text)) := none
  hereSkipN : Nat := 0
  hereFeedI : Nat := 0
  deriving Repr, DecidableEq

/-- `petrush_pipeline_t`. -/
structure PetrushPipeline where
  cmds : Option (List PetrushCmd) := none
  ncmds : Nat := 0
  deriving Repr, DecidableEq

/-- `petrush_dbracket_t`. -/
structure PetrushDbracket where
  argv : Option (List (Option Text)) := none
  argc : Nat := 0
  argvQuoted : Option (List Int) := none
  deriving Repr, DecidableEq

/-- `petrush_item_kind_t`. -/
inductive PetrushItemKind where
  | pipeline
  | ifc
  | wh
  | fr
  | fn
  | cs
  | db
  deriving Repr, DecidableEq

mutual

/-- `petrush_list_t`. -/
structure PetrushList where
  items : Option (List PetrushListItem)
  nitems : Nat

/-- `petrush_if_arm_t`. -/
structure PetrushIfArm where
  cond : PetrushList
  body : PetrushList
  isElse : Int

/-- `petrush_if_t`. -/
structure PetrushIf where
  arms : Option (List PetrushIfArm)
  narms : Nat

/-- `petrush_while_t`. -/
structure PetrushWhile where
  cond : PetrushList
  body : PetrushList

/-- `petrush_for_t`. -/
structure PetrushFor where
  name : Option Text
  words : Option (List (Option Text))
  nwords : Nat
  body : PetrushList

/-- `petrush_fn_t`. -/
structure PetrushFn where
  name : Option Text
  body : PetrushList

/-- `petrush_case_arm_t`. -/
structure PetrushCaseArm where
  patterns : Option (List (Option Text))
  npatterns : Nat
  body : PetrushList

/-- `petrush_case_t`. -/
structure PetrushCase where
  word : Option Text
  arms : Option (List PetrushCaseArm)
  narms : Nat

/-- `struct petrush_list_item`. -/
structure PetrushListItem where
  kind : PetrushItemKind
  pl : PetrushPipeline
  ifc : PetrushIf
  wh : PetrushWhile
  fr : PetrushFor
  fn : PetrushFn
  cs : PetrushCase
  db : PetrushDbracket
  cond : RunCond
  background : Int

end

/-- `memset(list, 0, sizeof(*list))`. -/
def PetrushList.zero : PetrushList := ⟨none, 0⟩

/-- An item from `calloc`, behind the assignment of what every kind has. -/
def PetrushListItem.zero (kind : PetrushItemKind) (cond : RunCond) (background : Int) :
    PetrushListItem where
  kind := kind
  pl := {}
  ifc := ⟨none, 0⟩
  wh := ⟨.zero, .zero⟩
  fr := ⟨none, none, 0, .zero⟩
  fn := ⟨none, .zero⟩
  cs := ⟨none, none, 0⟩
  db := {}
  cond := cond
  background := background

/-! ## Copies -/

section Copies

variable {α : Type}

/-- What a pointer points to. -/
def deref : Option (List α) → Except Fault (List α)
  | none => .error .outside
  | some cells => .ok cells

/-- `n` cells are read, and their values stored in an array of their own. -/
def copyCells : Nat → List α → Except Fault (List α)
  | 0, _ => .ok []
  | _ + 1, [] => .error .outside
  | n + 1, a :: cells => (copyCells n cells).map (a :: ·)

/-- `if (n > 0) { … }` around the copy of an array: what it leaves in the pointer. -/
def copyArray (n : Nat) (cells : Option (List α)) : Except Fault (Option (List α)) :=
  if n = 0 then .ok none else (deref cells).bind fun cells => (copyCells n cells).map some

/-- The same around an array that may be missing: `if (n > 0 && a) { … }`. -/
def copyIfSet (n : Nat) (cells : Option (List α)) : Except Fault (Option (List α)) :=
  if cells.isNone then .ok none else copyArray n cells

end Copies

/-- `clone_cmd`. -/
def cloneCmd (src : PetrushCmd) : Except Fault PetrushCmd := do
  let argv ← copyArray src.argc src.argv
  let argvQuoted ← copyIfSet src.argc src.argvQuoted
  let skips ← copyIfSet src.hereSkipN src.hereSkipDelims
  .ok
    { argc := src.argc
      redirAppend := src.redirAppend
      redirErrAppend := src.redirErrAppend
      redirErrToOut := src.redirErrToOut
      hereQuoted := src.hereQuoted
      hereStrip := src.hereStrip
      hereFeedI := src.hereFeedI
      -- `calloc(argc + 1)`: the last cell stays `NULL`.
      argv := argv.map (· ++ [none])
      argvQuoted := argvQuoted
      redirIn := src.redirIn
      redirOut := src.redirOut
      redirErr := src.redirErr
      hereDelim := src.hereDelim
      hereBody := src.hereBody
      hereSkipDelims := skips
      hereSkipN := if skips.isNone then 0 else src.hereSkipN }

/-- The loop of `clone_pipeline`. -/
def cloneCmds : Nat → List PetrushCmd → Except Fault (List PetrushCmd)
  | 0, _ => .ok []
  | _ + 1, [] => .error .outside
  | n + 1, cmd :: cmds => do
      let cmd ← cloneCmd cmd
      let cmds ← cloneCmds n cmds
      .ok (cmd :: cmds)

/-- `clone_pipeline`. -/
def clonePipeline (src : PetrushPipeline) : Except Fault PetrushPipeline :=
  if src.ncmds = 0 then .ok {}
  else do
    let cells ← deref src.cmds
    let cmds ← cloneCmds src.ncmds cells
    .ok ⟨some cmds, src.ncmds⟩

/-- The copy of `[[ … ]]` in `clone_list`. -/
def cloneDbracket (src : PetrushDbracket) : Except Fault PetrushDbracket :=
  if src.argc = 0 then .ok {}
  else do
    let argv ← copyArray src.argc src.argv
    let argvQuoted ← copyIfSet src.argc src.argvQuoted
    .ok ⟨argv, src.argc, argvQuoted⟩

mutual

/-- `clone_list`. -/
def cloneList : PetrushList → Except Fault PetrushList
  | ⟨_, 0⟩ => .ok .zero
  | ⟨none, _ + 1⟩ => .error .outside
  | ⟨some cells, n + 1⟩ => (cloneItems (n + 1) cells).map fun items => ⟨some items, n + 1⟩

/-- Its loop. -/
def cloneItems : Nat → List PetrushListItem → Except Fault (List PetrushListItem)
  | 0, _ => .ok []
  | _ + 1, [] => .error .outside
  | n + 1, it :: items => do
      let it ← cloneItem it
      let items ← cloneItems n items
      .ok (it :: items)

/-- One turn of it. -/
def cloneItem : PetrushListItem → Except Fault PetrushListItem
  | ⟨kind, pl, ifc, wh, fr, fn, cs, db, cond, background⟩ =>
      let di := PetrushListItem.zero kind cond background
      match kind with
      | .ifc => (cloneIf ifc).map fun ifc => { di with ifc := ifc }
      | .wh => (cloneWhile wh).map fun wh => { di with wh := wh }
      | .fr => (cloneFor fr).map fun fr => { di with fr := fr }
      | .fn => (cloneFn fn).map fun fn => { di with fn := fn }
      | .cs => (cloneCase cs).map fun cs => { di with cs := cs }
      | .db => (cloneDbracket db).map fun db => { di with db := db }
      | .pipeline => (clonePipeline pl).map fun pl => { di with pl := pl }

def cloneIf : PetrushIf → Except Fault PetrushIf
  | ⟨_, 0⟩ => .ok ⟨none, 0⟩
  | ⟨none, _ + 1⟩ => .error .outside
  | ⟨some cells, n + 1⟩ => (cloneIfArms (n + 1) cells).map fun arms => ⟨some arms, n + 1⟩

def cloneIfArms : Nat → List PetrushIfArm → Except Fault (List PetrushIfArm)
  | 0, _ => .ok []
  | _ + 1, [] => .error .outside
  | n + 1, ⟨cond, body, isElse⟩ :: arms => do
      let cond ← cloneList cond
      let body ← cloneList body
      let arms ← cloneIfArms n arms
      .ok (⟨cond, body, isElse⟩ :: arms)

def cloneWhile : PetrushWhile → Except Fault PetrushWhile
  | ⟨cond, body⟩ => do
      let cond ← cloneList cond
      let body ← cloneList body
      .ok ⟨cond, body⟩

def cloneFor : PetrushFor → Except Fault PetrushFor
  | ⟨name, words, nwords, body⟩ => do
      let words ← copyArray nwords words
      let body ← cloneList body
      .ok ⟨name, words, nwords, body⟩

def cloneFn : PetrushFn → Except Fault PetrushFn
  | ⟨name, body⟩ => (cloneList body).map fun body => ⟨name, body⟩

def cloneCase : PetrushCase → Except Fault PetrushCase
  | ⟨word, _, 0⟩ => .ok ⟨word, none, 0⟩
  | ⟨_, none, _ + 1⟩ => .error .outside
  | ⟨word, some cells, n + 1⟩ =>
      (cloneCaseArms (n + 1) cells).map fun arms => ⟨word, some arms, n + 1⟩

def cloneCaseArms : Nat → List PetrushCaseArm → Except Fault (List PetrushCaseArm)
  | 0, _ => .ok []
  | _ + 1, [] => .error .outside
  | n + 1, ⟨patterns, npatterns, body⟩ :: arms => do
      let patterns ← copyArray npatterns patterns
      let body ← cloneList body
      let arms ← cloneCaseArms n arms
      .ok (⟨patterns, npatterns, body⟩ :: arms)

end

/-! ## What is read -/

section Reading

variable {α β : Type}

/-- The first `n` cells, each read by `f`. -/
def readCells (f : α → Option β) : Nat → List α → Option (List β)
  | 0, _ => some []
  | _ + 1, [] => none
  | n + 1, a :: cells => (f a).bind fun b => (readCells f n cells).map (b :: ·)

/-- An array of `n` cells; of no cells, the pointer is not followed. -/
def readArray (f : α → Option β) (n : Nat) (cells : Option (List α)) : Option (List β) :=
  if n = 0 then some [] else cells.bind (readCells f n)

end Reading

/-- An entry of `argv_quoted`. -/
def quotingOf (q : Int) : Option Quoting :=
  if q = 0 then some .unquoted else if q = 1 then some .single
  else if q = 2 then some .double else none

/-- The words; without `argv_quoted` none is quoted. -/
def readWords (argc : Nat) (argv : Option (List (Option Text))) (quoted : Option (List Int)) :
    Option (List Word) :=
  (readArray id argc argv).bind fun texts =>
    if quoted.isNone then some (texts.map fun text => ⟨text, .unquoted⟩)
    else (readArray quotingOf argc quoted).map fun flags => texts.zipWith Word.mk flags

/-- `argv` ends with a `NULL`. -/
def terminated (argc : Nat) (argv : Option (List (Option Text))) : Bool :=
  argc == 0 || argv.any fun cells => cells[argc]? == some none

/-- The command. -/
def cmdTree (cmd : PetrushCmd) : Option Cmd :=
  if terminated cmd.argc cmd.argv then
    (readWords cmd.argc cmd.argv cmd.argvQuoted).bind fun argv =>
      (readArray id cmd.hereSkipN cmd.hereSkipDelims).map fun skips =>
        { argv := argv
          redirIn := cmd.redirIn
          redirOut := cmd.redirOut
          redirAppend := cmd.redirAppend != 0
          redirErr := cmd.redirErr
          redirErrAppend := cmd.redirErrAppend != 0
          redirErrToOut := cmd.redirErrToOut != 0
          hereDelim := cmd.hereDelim
          hereBody := cmd.hereBody
          hereQuoted := cmd.hereQuoted != 0
          hereStrip := cmd.hereStrip != 0
          hereSkipDelims := skips
          hereFeedI := cmd.hereFeedI }
  else none

/-- The pipeline. -/
def pipelineTree (pl : PetrushPipeline) : Option Pipeline :=
  (readArray cmdTree pl.ncmds pl.cmds).map Pipeline.mk

/-- The tokens of `[[ … ]]`. -/
def dbracketTree (db : PetrushDbracket) : Option (List Word) :=
  readWords db.argc db.argv db.argvQuoted

mutual

/-- **The tree of a list.** -/
def listTree : PetrushList → Option PList
  | ⟨_, 0⟩ => some []
  | ⟨none, _ + 1⟩ => none
  | ⟨some cells, n + 1⟩ => itemsTree (n + 1) cells

def itemsTree : Nat → List PetrushListItem → Option (List Item)
  | 0, _ => some []
  | _ + 1, [] => none
  | n + 1, it :: items => (itemTree it).bind fun it => (itemsTree n items).map (it :: ·)

/-- The payload that the kind selects. -/
def itemTree : PetrushListItem → Option Item
  | ⟨kind, pl, ifc, wh, fr, fn, cs, db, cond, background⟩ =>
      let item (k : ItemKind) : Item := ⟨k, cond, background != 0⟩
      match kind with
      | .ifc => (ifTree ifc).map fun arms => item (.ifc arms)
      | .wh => (whileTree wh).map fun k => item k
      | .fr => (forTree fr).map fun k => item k
      | .fn => (fnTree fn).map fun k => item k
      | .cs => (caseTree cs).map fun k => item k
      | .db => (dbracketTree db).map fun argv => item (.db argv)
      | .pipeline => (pipelineTree pl).map fun pl => item (.pipeline pl)

def ifTree : PetrushIf → Option (List IfArm)
  | ⟨_, 0⟩ => some []
  | ⟨none, _ + 1⟩ => none
  | ⟨some cells, n + 1⟩ => ifArmsTree (n + 1) cells

def ifArmsTree : Nat → List PetrushIfArm → Option (List IfArm)
  | 0, _ => some []
  | _ + 1, [] => none
  | n + 1, ⟨cond, body, isElse⟩ :: arms =>
      (listTree cond).bind fun cond => (listTree body).bind fun body =>
        (ifArmsTree n arms).map (⟨cond, body, isElse != 0⟩ :: ·)

def whileTree : PetrushWhile → Option ItemKind
  | ⟨cond, body⟩ => (listTree cond).bind fun cond => (listTree body).map fun body => .wh cond body

def forTree : PetrushFor → Option ItemKind
  | ⟨name, words, nwords, body⟩ =>
      name.bind fun name => (readArray id nwords words).bind fun words =>
        (listTree body).map fun body => .fr name words body

def fnTree : PetrushFn → Option ItemKind
  | ⟨name, body⟩ => name.bind fun name => (listTree body).map fun body => .fn name body

def caseTree : PetrushCase → Option ItemKind
  | ⟨word, _, 0⟩ => word.map fun word => .cs word []
  | ⟨_, none, _ + 1⟩ => none
  | ⟨word, some cells, n + 1⟩ =>
      word.bind fun word => (caseArmsTree (n + 1) cells).map fun arms => .cs word arms

def caseArmsTree : Nat → List PetrushCaseArm → Option (List CaseArm)
  | 0, _ => some []
  | _ + 1, [] => none
  | n + 1, ⟨patterns, npatterns, body⟩ :: arms =>
      (readArray id npatterns patterns).bind fun patterns => (listTree body).bind fun body =>
        (caseArmsTree n arms).map (⟨patterns, body⟩ :: ·)

end

end Petrush.Mid.Clone
