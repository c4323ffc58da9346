import Petrush.Lib.Stdio
import Petrush.Mid.Builtins

/-!
# The configuration of `configsh` (`cxx/config.cpp`)

An INI file is read line by line into sections of keys and values, and printed back.
The fixed arrays of the source are lists here, with the checks on their sizes.

Not modelled: `resolve_config_path`, `check_config` and the printing of the messages.
-/

namespace Petrush.Configsh

open Petrush.Lib.CText
open Petrush.Lib.Stdio
open Petrush.Mid.Builtins

/-! ## The configuration -/

def kMaxPath : Nat := 512

def kMaxSectionName : Nat := 32

def kMaxKey : Nat := 64

def kMaxVal : Nat := 256

def kMaxEntries : Nat := 64

def kMaxSections : Nat := 8

def kMaxLine : Nat := 512

structure Entry where
  key : Text
  val : Text
  deriving Repr, DecidableEq

structure Section where
  name : Text
  entries : List Entry := []
  deriving Repr, DecidableEq

structure Config where
  sections : List Section := []
  path : Text := []
  loadedFromDisk : Bool := false
  deriving Repr, DecidableEq

/-- The errors of `load_config`, as it reports them; those about a line have its
number. -/
inductive LoadError where
  | pathTooLong
  | lineTooLong (lineno : Nat)
  | badSectionHeader (lineno : Nat)
  | unknownSection (lineno : Nat) (name : Text)
  | duplicateSection (lineno : Nat) (name : Text)
  | tooManySections
  | sectionNameTooLong
  | keyOutsideSection (lineno : Nat)
  | expectedKeyValue (lineno : Nat)
  | emptyKey (lineno : Nat)
  | duplicateKey (key name : Text)
  | tooManyKeys (name : Text)
  | keyTooLong
  | valueTooLong
  deriving Repr, DecidableEq

/-! ## Sections and entries -/

/-- `is_space`. -/
def isSpace (c : Char) : Bool := c == ' ' || c == '\t' || c == '\r' || c == '\n'

/-- The names `is_known_section` knows. -/
def knownSections : List Text :=
  ["prompt".toList, "aliases".toList, "env".toList, "history".toList, "general".toList]

/-- `is_known_section`. -/
def isKnownSection (name : Text) : Bool := knownSections.contains name

/-- `find_section`. -/
def findSection (sections : List Section) (name : Text) : Option Section :=
  sections.find? fun sec => sec.name == name

/-- `copy_str` would fit. -/
def fits (cap : Nat) (src : Text) : Bool := decide (src.length + 1 ≤ cap)

/-- `add_section`, for a name that is not empty. -/
def addSection (sections : List Section) (name : Text) : Except LoadError (List Section) :=
  if sections.length ≥ kMaxSections then .error .tooManySections
  else if !fits kMaxSectionName name then .error .sectionNameTooLong
  else .ok (sections ++ [⟨name, []⟩])

/-- `add_entry`, for a key that is not empty. -/
def addEntry (sec : Section) (key val : Text) : Except LoadError Section :=
  if sec.entries.any fun e => e.key == key then .error (.duplicateKey key sec.name)
  else if sec.entries.length ≥ kMaxEntries then .error (.tooManyKeys sec.name)
  else if !fits kMaxKey key then .error .keyTooLong
  else if !fits kMaxVal val then .error .valueTooLong
  else .ok { sec with entries := sec.entries ++ [⟨key, val⟩] }

/-! ## `load_config` -/

/-- A line that opens a section. -/
def loadHeader (sections : List Section) (lineno : Nat) (line : Text) :
    Except LoadError (List Section) :=
  let name := line.tail.takeWhile (· != ']')
  if ']' ∉ line ∨ name = [] then .error (.badSectionHeader lineno)
  else if !isKnownSection name then .error (.unknownSection lineno name)
  else if (findSection sections name).isSome then .error (.duplicateSection lineno name)
  else addSection sections name

/-- A line with a key; `cur` is the section that was added last. -/
def loadEntry (sections : List Section) (lineno : Nat) (line : Text) :
    Except LoadError (List Section) :=
  match sections.getLast? with
  | none => .error (.keyOutsideSection lineno)
  | some cur =>
      match splitAtEq line with
      | none => .error (.expectedKeyValue lineno)
      | some (key, val) =>
          if trim isSpace key = [] then .error (.emptyKey lineno)
          else do
            let cur ← addEntry cur (trim isSpace key) (trim isSpace val)
            pure (sections.dropLast ++ [cur])

/-- One turn of the loop of `load_config`, on what `fgets` returned. -/
def loadLine (sections : List Section) (lineno : Nat) (piece : Text) :
    Except LoadError (List Section) :=
  let line := cstr piece
  if line.length + 1 = kMaxLine ∧ line.getLast? ≠ some '\n' then .error (.lineTooLong lineno)
  else
    let line := trim isSpace line
    if line = [] ∨ line.head? = some '#' ∨ line.head? = some ';' then .ok sections
    else if line.head? = some '[' then loadHeader sections lineno line
    else loadEntry sections lineno line

/-- The loop. -/
def loadLines (sections : List Section) (lineno : Nat) :
    List Text → Except LoadError (List Section)
  | [] => .ok sections
  | piece :: pieces => do
      let sections ← loadLine sections lineno piece
      loadLines sections (lineno + 1) pieces

/-- `load_defaults`. -/
def loadDefaults : List Section :=
  [⟨"prompt".toList, [⟨"ps1".toList, "petrush> ".toList⟩]⟩,
   ⟨"history".toList, [⟨"max".toList, "1000".toList⟩]⟩]

/-- `load_config`; no file is `none`. -/
def loadConfig (path : Text) (file : Option Text) : Except LoadError Config :=
  if !fits kMaxPath path then .error .pathTooLong
  else
    match file with
    | none => .ok ⟨loadDefaults, path, false⟩
    | some content => do
        let sections ← loadLines [] 1 (fgetsPieces (kMaxLine - 1) content)
        pure ⟨sections, path, true⟩

/-! ## `dump_config` -/

/-- One line of `dump_section`. -/
def dumpEntry (e : Entry) : Text := e.key ++ '=' :: e.val ++ ['\n']

/-- `dump_section`. -/
def dumpSection (sec : Section) : Text :=
  '[' :: sec.name ++ "]\n".toList ++ sec.entries.flatMap dumpEntry

/-- `dump_config`: what it prints, `none` when there is no such section. -/
def dumpConfig (cfg : Config) (section? : Option Text) : Option Text :=
  match section? with
  | some (c :: name) => (findSection cfg.sections (c :: name)).map dumpSection
  | _ => some (['\n'].intercalate (cfg.sections.map dumpSection))

end Petrush.Configsh
