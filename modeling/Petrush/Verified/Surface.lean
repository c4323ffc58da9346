import Petrush.Mid.Parser

/-!
# The concrete syntax of command lists

Well-formed command lists as they are written: a syntax tree that keeps the
choices the AST forgets (which quote, which order of redirections, which form
of a function definition) and whose types admit nothing else, its printer
(tokens with one blank between them), and the AST it stands for.

A list is never empty where the grammar wants a command; each of its items is
followed by a separator, the last one of an inner list by `;` or by its own `&`.
-/

namespace Petrush.Verified.Surface

open Petrush.Lib.CText
open Petrush.Mid.Ast
open Petrush.Mid.Lexer
open Petrush.Mid.Parser

/-! ## Words -/

/-- The reserved words: the compound keywords, `function`, `in`, the brackets
and `!`. -/
def reserved : List Text :=
  ["if".toList, "then".toList, "elif".toList, "else".toList, "fi".toList, "while".toList,
    "do".toList, "done".toList, "for".toList, "case".toList, "esac".toList,
    "function".toList, "in".toList, "[[".toList, "]]".toList, "!".toList]

/-- The characters of an unquoted word. -/
def isWordChar (c : Char) : Bool :=
  !isspace c && !isQuote c && !"$;|&<>()\x7b\x7d".toList.contains c

/-- A word: unquoted, or written whole between one kind of quote. -/
inductive SWord where
  | bare (s : Text) (nonempty : s ≠ []) (chars : ∀ c ∈ s, isWordChar c = true)
      (unreserved : s ∉ reserved)
  | single (s : Text) (nonempty : s ≠ []) (free : '\'' ∉ s)
  | double (s : Text) (nonempty : s ≠ []) (free : '"' ∉ s)

namespace SWord

def print : SWord → Text
  | bare s _ _ _ => s
  | single s _ _ => '\'' :: s ++ ['\'']
  | double s _ _ => '"' :: s ++ ['"']

def text : SWord → Text
  | bare s _ _ _ | single s _ _ | double s _ _ => s

def quoted : SWord → Quoting
  | bare _ _ _ _ => .unquoted
  | single _ _ _ => .single
  | double _ _ _ => .double

def toWord (w : SWord) : Word := ⟨w.text, w.quoted⟩

end SWord

/-! ## Pipelines -/

/-- An operator as written. -/
def opText : TokKind → Text
  | .pipe => "|".toList
  | .lt => "<".toList
  | .dless => "<<".toList
  | .dlessdash => "<<-".toList
  | .gt => ">".toList
  | .gtgt => ">>".toList
  | .errgt => "2>".toList
  | .errgtgt => "2>>".toList
  | .errtoout => "2>&1".toList
  | .ampgt => "&>".toList

/-- A word or an operator of a pipeline. -/
inductive STok where
  | word (w : SWord)
  | op (k : TokKind)

namespace STok

def print : STok → Text
  | word w => w.print
  | op k => opText k

def toToken : STok → Token
  | word w => .word w.toWord
  | op k => .op k

end STok

/-- What a stage is written of: words and redirections, in any order. -/
inductive StagePart where
  | word (w : SWord)
  | stdin (path : SWord)
  | stdout (append : Bool) (path : SWord)
  | stderr (append : Bool) (path : SWord)
  | errToOut
  | both (path : SWord)
  | hereDoc (strip : Bool) (delim : SWord)

namespace StagePart

def toks : StagePart → List STok
  | word w => [.word w]
  | stdin p => [.op .lt, .word p]
  | stdout append p => [.op (if append then .gtgt else .gt), .word p]
  | stderr append p => [.op (if append then .errgtgt else .errgt), .word p]
  | errToOut => [.op .errtoout]
  | both p => [.op .ampgt, .word p]
  | hereDoc strip d => [.op (if strip then .dlessdash else .dless), .word d]

def isWord : StagePart → Bool
  | word _ => true
  | _ => false

def isHereDoc : StagePart → Bool
  | hereDoc _ _ => true
  | _ => false

/-- What the part adds to the command; of two redirections of one stream the
later one counts. -/
def addTo (cmd : Cmd) : StagePart → Cmd
  | word w => { cmd with argv := cmd.argv ++ [w.toWord] }
  | stdin p =>
      { cmd with
        redirIn := some p.text, hereDelim := none, hereQuoted := false, hereStrip := false }
  | stdout append p => { cmd with redirOut := some p.text, redirAppend := append }
  | stderr append p =>
      { cmd with redirErr := some p.text, redirErrAppend := append, redirErrToOut := false }
  | errToOut => { cmd with redirErr := none, redirErrAppend := false, redirErrToOut := true }
  | both p =>
      { cmd with
        redirOut := some p.text, redirAppend := false, redirErr := none
        redirErrAppend := false, redirErrToOut := true }
  | hereDoc strip d =>
      { cmd with
        redirIn := none, hereDelim := some d.text
        hereQuoted := d.quoted != .unquoted, hereStrip := strip }

end StagePart

/-- A stage: at least one word, at most one here-document. -/
structure SStage where
  parts : List StagePart
  hasWord : ∃ part ∈ parts, part.isWord = true
  oneHereDoc : parts.countP StagePart.isHereDoc ≤ 1

namespace SStage

def toks (st : SStage) : List STok := st.parts.flatMap StagePart.toks

def toCmd (st : SStage) : Cmd := st.parts.foldl StagePart.addTo {}

end SStage

/-- The tokens of a pipeline: those of its stages with `|` between them. -/
def pipelineToks (st : SStage) (sts : List SStage) : List STok :=
  st.toks ++ sts.flatMap fun st' => .op .pipe :: st'.toks

/-! ## Lists and compound commands -/

/-- How an item is separated from the next. -/
inductive Sep where
  | seq
  | bg
  | and
  | or
  deriving DecidableEq

namespace Sep

def print : Sep → Text
  | seq => ";".toList
  | bg => "&".toList
  | and => "&&".toList
  | or => "||".toList

/-- The condition of the item after it. -/
def next : Sep → RunCond
  | seq | bg => .always
  | and => .and
  | or => .or

/-- It sends the item before it to the background. -/
def isBg : Sep → Bool
  | bg => true
  | _ => false

/-- The separator that ends a list. -/
def last (bg : Bool) : Sep := if bg then .bg else .seq

end Sep

/-- The three forms of a function definition. -/
inductive FnForm where
  | posix
  | keyword
  | keywordParens

/-- A function name. -/
structure FnName where
  text : Text
  start : text.head?.any isFnNameStart = true
  chars : ∀ c ∈ text, isFnNameChar c = true
  unreserved : text ∉ reserved

/-- A token of `[[ ]]`. -/
inductive DbTok where
  | word (w : SWord)
  | and
  | or
  | not

namespace DbTok

def print : DbTok → Text
  | word w => w.print
  | and => "&&".toList
  | or => "||".toList
  | not => "!".toList

def toWord : DbTok → Word
  | word w => w.toWord
  | and => ⟨"&&".toList, .unquoted⟩
  | or => ⟨"||".toList, .unquoted⟩
  | not => ⟨"!".toList, .unquoted⟩

end DbTok

mutual

/-- An item without its separator. -/
inductive SKind where
  | pipeline (st : SStage) (sts : List SStage)
  | ifc (cond : SList) (body : SBody) (els : SElse)
  | wh (cond : SList) (body : SBody)
  | fr (name : SWord) (words : List SWord) (body : SBody)
  | fn (form : FnForm) (name : FnName) (body : SBody)
  | cs (word : SWord) (arms : SArms)
  | db (toks : List DbTok)

/-- What follows the first arm of an `if`. -/
inductive SElse where
  | fi
  | els (body : SBody)
  | elif (cond : SList) (body : SBody) (els : SElse)

/-- The arms of a `case`. -/
inductive SArms where
  | nil
  | cons (pat : SWord) (pats : List SWord) (body : SBody) (arms : SArms)

/-- A body may be empty. -/
inductive SBody where
  | empty
  | list (l : SList)

/-- A list with the separators between its items; the last one ends it with `&`
or without. -/
inductive SList where
  | last (k : SKind) (bg : Bool)
  | cons (k : SKind) (sep : Sep) (rest : SList)

end

/-- The tokens of alternative patterns, with `|` between them. -/
def patternToks (pat : SWord) (pats : List SWord) : List Text :=
  pat.print :: pats.flatMap fun p => ["|".toList, p.print]

/-- The tokens before the body of a function definition. -/
def fnToks (name : FnName) : FnForm → List Text
  | .posix => [name.text, "(".toList, ")".toList, ['\x7b']]
  | .keyword => ["function".toList, name.text, ['\x7b']]
  | .keywordParens => ["function".toList, name.text, "(".toList, ")".toList, ['\x7b']]

mutual

/-- The tokens of an item. -/
def SKind.toks : SKind → List Text
  | .pipeline st sts => (pipelineToks st sts).map STok.print
  | .ifc cond body els => "if".toList :: cond.toks ++ "then".toList :: body.toks ++ els.toks
  | .wh cond body =>
      "while".toList :: cond.toks ++ "do".toList :: body.toks ++ ["done".toList]
  | .fr name words body =>
      "for".toList :: name.print :: "in".toList :: words.map SWord.print ++
        ";".toList :: "do".toList :: body.toks ++ ["done".toList]
  | .fn form name body => fnToks name form ++ body.toks ++ [['\x7d']]
  | .cs word arms =>
      "case".toList :: word.print :: "in".toList :: arms.toks ++ ["esac".toList]
  | .db toks => "[[".toList :: toks.map DbTok.print ++ ["]]".toList]

def SElse.toks : SElse → List Text
  | .fi => ["fi".toList]
  | .els body => "else".toList :: body.toks ++ ["fi".toList]
  | .elif cond body els =>
      "elif".toList :: cond.toks ++ "then".toList :: body.toks ++ els.toks

def SArms.toks : SArms → List Text
  | .nil => []
  | .cons pat pats body arms =>
      patternToks pat pats ++ ")".toList :: body.toks ++ ";;".toList :: arms.toks

def SBody.toks : SBody → List Text
  | .empty => []
  | .list l => l.toks

/-- The tokens of an inner list. -/
def SList.toks : SList → List Text
  | .last k bg => k.toks ++ [(Sep.last bg).print]
  | .cons k sep rest => k.toks ++ sep.print :: rest.toks

end

mutual

/-- The AST an item stands for. -/
def SKind.toAst : SKind → ItemKind
  | .pipeline st sts => .pipeline ⟨(st :: sts).map SStage.toCmd⟩
  | .ifc cond body els => .ifc (⟨cond.toAst .always, body.toAst, false⟩ :: els.toAst)
  | .wh cond body => .wh (cond.toAst .always) body.toAst
  | .fr name words body => .fr name.text (words.map SWord.text) body.toAst
  | .fn _ name body => .fn name.text body.toAst
  | .cs word arms => .cs word.text arms.toAst
  | .db toks => .db (toks.map DbTok.toWord)

def SElse.toAst : SElse → List IfArm
  | .fi => []
  | .els body => [⟨[], body.toAst, true⟩]
  | .elif cond body els => ⟨cond.toAst .always, body.toAst, false⟩ :: els.toAst

def SArms.toAst : SArms → List CaseArm
  | .nil => []
  | .cons pat pats body arms => ⟨(pat :: pats).map SWord.text, body.toAst⟩ :: arms.toAst

def SBody.toAst : SBody → PList
  | .empty => []
  | .list l => l.toAst .always

/-- The list whose first item has the condition `next`. -/
def SList.toAst : SList → RunCond → PList
  | .last k bg, next => [⟨k.toAst, next, bg⟩]
  | .cons k sep rest, next => ⟨k.toAst, next, sep.isBg⟩ :: rest.toAst sep.next

end

/-! ## Printing -/

/-- The tokens of a whole line: its last item needs no `;`. -/
def SList.topToks : SList → List Text
  | .last k bg => k.toks ++ (if bg then ["&".toList] else [])
  | .cons k sep rest => k.toks ++ sep.print :: rest.topToks

/-- A whole line as written. -/
def SList.print (l : SList) : Text := List.intercalate [' '] l.topToks

end Petrush.Verified.Surface
