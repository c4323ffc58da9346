import Petrush.Foundation.Env
import Petrush.Lib.Run
import Petrush.Lib.Stdio

/-!
# The loader of plugins (`plugin_load.c`)

`petrush_plugin_load` finds a shared object on the search path, checks who may
write to it, looks its hash up in an allow-list, and only then opens it, asks for
its version and initialises it.  Everything it asks the system is a field of `Host`;
a plugin's functions are numbered, as `dlsym` gives them.

The state is what the caller's `out` holds and a record of what was done.  An error
return is an exit of the program with its code.

Not modelled: `petrush_plugin_unload`, and failures of `malloc`.
-/

namespace Petrush.Foundation.PluginLoad

open Petrush.Lib.CText
open Petrush.Lib.Run
open Petrush.Lib.Stdio
open Petrush.Foundation

/-! ## Constants -/

/-- `PETRUSH_PLG_PATH_MAX`. -/
def pathMax : Nat := 4096

/-- `PETRUSH_PLUGIN_SHA256_LEN`. -/
def sha256Len : Nat := 32

/-- `PETRUSH_PLUGIN_SHA256_HEX_LEN`. -/
def sha256HexLen : Nat := 64

/-- `PETRUSH_PLUGIN_ALLOW_MAX`. -/
def allowMax : Nat := 64

/-- `PETRUSH_PLUGIN_SEARCH_MAX`. -/
def searchMax : Nat := 32

/-- `PETRUSH_PLUGIN_MAX_BYTES`. -/
def maxBytes : Nat := 16 * 1024 * 1024

/-- `PETRUSH_PLUGIN_ABI_MAJOR`. -/
def abiMajor : Nat := 1

/-- `PETRUSH_PLUGIN_ABI_MINOR`. -/
def abiMinor : Nat := 0

/-- The error codes of `petrush_plugin_load`. -/
def errNotfound : Int := -2

@[inherit_doc errNotfound] def errPerm : Int := -3

@[inherit_doc errNotfound] def errAllow : Int := -4

@[inherit_doc errNotfound] def errHash : Int := -5

@[inherit_doc errNotfound] def errAbi : Int := -6

@[inherit_doc errNotfound] def errDlopen : Int := -7

@[inherit_doc errNotfound] def errIo : Int := -8

@[inherit_doc errNotfound] def errSize : Int := -9

/-! ## The system -/

/-- The two fields of `struct stat` the loader reads. -/
structure Stat where
  mode : Nat
  size : Nat
  deriving Repr, DecidableEq

/-- `S_ISREG`. -/
def Stat.isReg (st : Stat) : Bool := st.mode &&& 0o170000 == 0o100000

/-- `S_ISDIR`. -/
def Stat.isDir (st : Stat) : Bool := st.mode &&& 0o170000 == 0o040000

/-- `S_IWOTH`. -/
def Stat.otherWritable (st : Stat) : Bool := st.mode &&& 0o2 != 0

/-- A SHA-256 digest. -/
structure Digest where
  bytes : List UInt8
  length_eq : bytes.length = sha256Len

/-- `petrush_plugin_info_t`. -/
structure Info where
  abiMajor : Nat
  abiMinor : Nat
  name : Option Text
  version : Option Text
  deriving Repr, DecidableEq

/-- The four entry points of a plugin, as far as it has them. -/
structure Symbols where
  query : Option Nat
  init : Option Nat
  cmd : Option Nat
  fini : Option Nat
  deriving Repr, DecidableEq

/-- All four. -/
structure Entries where
  query : Nat
  init : Nat
  cmd : Nat
  fini : Nat
  deriving Repr, DecidableEq

/-- The system as the loader sees it.  What `realpath` returns is absolute and, as
documented, shorter than `PATH_MAX`. -/
structure Host where
  env : Env
  realpath : Text → Option Text
  realpath_abs : ∀ p q, realpath p = some q → q.head? = some '/'
  realpath_lt : ∀ p q, realpath p = some q → q.length < pathMax
  lstat : Text → Option Stat
  stat : Text → Option Stat
  /-- A stream: its bytes, and whether reading it ends in an error. -/
  fopen : Text → Option (Text × Bool)
  openFile : Text → Option Nat
  fstat : Nat → Option Stat
  /-- The digest of the bytes of an open file, if they can be read. -/
  sha256 : Nat → Option Digest
  dlopen : Text → Option Nat
  dlsym : Nat → Text → Option Nat
  /-- The symbol `petrush_plugin_abi`. -/
  dlsymAbi : Nat → Option Symbols
  query : Nat → Int × Info
  init : Nat → Int

/-! ## What is done -/

/-- `petrush_plugin_t`. -/
structure Plugin where
  handle : Option Nat := none
  path : Text := []
  sha256Hex : Text := []
  plugName : Text := []
  version : Text := []
  abiMajor : Nat := 0
  abiMinor : Nat := 0
  cmd : Option Nat := none
  fini : Option Nat := none
  initialized : Bool := false
  deriving Repr, DecidableEq

/-- Something that has to be closed. -/
inductive Handle where
  | stream
  | file (fd : Nat)
  | lib (handle : Nat)
  deriving Repr, DecidableEq

inductive Act where
  | opened (h : Handle)
  | closed (h : Handle)
  | query (fn : Nat)
  | init (fn : Nat)
  | fini (fn : Nat)
  /-- `log_deny`. -/
  | deny (reason path : Text)
  deriving Repr, DecidableEq

/-- The caller's `out`, and what was done, the last first. -/
structure Load where
  out : Plugin
  acts : List Act := []
  deriving Repr, DecidableEq

/-- Something is done. -/
def act (a : Act) : Prog Load Unit := modify fun s => { s with acts := a :: s.acts }

/-- An error return: what is undone, the message and the code. -/
def refuse {α : Type} (undo : List Act) (code : Int) (reason : String) (path : Text) :
    Prog Load α := do
  forEach act undo
  act (.deny reason.toList path)
  exit code

/-- The value of a step that may fail. -/
def orRefuse {α : Type} (o : Option α) (undo : List Act) (code : Int) (reason : String)
    (path : Text) : Prog Load α :=
  match o with
  | some a => pure a
  | none => refuse undo code reason path

/-- A check. -/
def require (p : Prop) [Decidable p] (undo : List Act) (code : Int) (reason : String)
    (path : Text) : Prog Load Unit :=
  if p then pure () else refuse undo code reason path

/-! ## Digests -/

/-- `hex_nibble`. -/
def hexNibble (c : Char) : Option Nat :=
  if '0' ≤ c ∧ c ≤ '9' then some (c.toNat - '0'.toNat)
  else if 'a' ≤ c ∧ c ≤ 'f' then some (10 + (c.toNat - 'a'.toNat))
  else if 'A' ≤ c ∧ c ≤ 'F' then some (10 + (c.toNat - 'A'.toNat))
  else none

/-- The loop of `parse_sha256_hex`, with the bytes still to be read. -/
def parseHexBytes : Nat → Text → Option (List UInt8)
  | 0, [] => some []
  | n + 1, a :: b :: hex => do
      let hi ← hexNibble a
      let lo ← hexNibble b
      let bytes ← parseHexBytes n hex
      pure (UInt8.ofNat (16 * hi + lo) :: bytes)
  | _, _ => none

/-- `parse_sha256_hex`. -/
def parseSha256Hex (hex : Text) : Option (List UInt8) := parseHexBytes sha256Len hex

/-- `is_hex64`. -/
def isHex64 (s : Text) : Bool :=
  s.length == sha256HexLen && s.all fun c => (hexNibble c).isSome

/-- `hexd`. -/
def hexDigit (n : Nat) : Char := "0123456789abcdef".toList.getD n '0'

/-- `petrush_plugin_sha256_to_hex`. -/
def sha256ToHex (dig : Digest) : Text :=
  dig.bytes.flatMap fun b => [hexDigit (b.toNat / 16), hexDigit (b.toNat % 16)]

/-- `petrush_plugin_sha256_hex_eq`. -/
def sha256HexEq (a b : Text) : Int :=
  match parseSha256Hex a, parseSha256Hex b with
  | some da, some db => if da = db then 0 else 1
  | _, _ => -1

/-! ## Who may write -/

/-- `strrchr(path, '/')`: the number of bytes before the last slash. -/
def lastSlash (path : Text) : Option Nat :=
  if '/' ∈ path then some (path.length - 1 - path.reverse.idxOf '/') else none

section Loader

variable (h : Host)

/-- One directory of the walk. -/
def dirOk (dir : Text) : Bool :=
  match h.stat dir with
  | none => false
  | some st => st.isDir && !st.otherWritable

/-- The walk of `petrush_plugin_path_writable_ok`, with a bound on its turns. -/
def walkDirs : Nat → Text → Bool
  | 0, _ => false
  | n + 1, dirbuf =>
      match lastSlash dirbuf with
      | none => false
      | some 0 => dirOk h ['/']
      | some (i + 1) => dirOk h (dirbuf.take (i + 1)) && walkDirs n (dirbuf.take (i + 1))

/-- `petrush_plugin_path_writable_ok`, true for its `0`. -/
def pathWritableOk (canonPath : Text) : Bool :=
  if canonPath.head? ≠ some '/' then false
  else
    match h.lstat canonPath with
    | none => false
    | some st =>
        st.isReg && !st.otherWritable && decide (canonPath.length < pathMax) &&
          walkDirs h canonPath.length canonPath

/-! ## The allow-list -/

/-- The bytes between the words of a line. -/
def isBlank (c : Char) : Bool := c == ' ' || c == '\t'

/-- The room for a line. -/
def lineRoom : Nat := pathMax + sha256HexLen + 64 - 1

/-- A line of the list: a path and a hash, `none` for a line that is ignored. -/
def lineEntry (line : Text) : Option (Text × Text) :=
  let p := line.dropWhile isBlank
  if p.head? = none ∨ p.head? = some '\n' ∨ p.head? = some '#' then none
  else
    let p := p.takeWhile (· != '\n')
    let pathTok := p.takeWhile (!isBlank ·)
    let sp := (p.dropWhile (!isBlank ·)).dropWhile isBlank
    if sp = [] then none
    else
      let hashTok := sp.takeWhile (!isBlank ·)
      if pathTok.head? ≠ some '/' ∨ '*' ∈ pathTok then none
      else if isHex64 hashTok then some (pathTok, hashTok)
      else none

/-- `petrush_plugin_allow_entry_t`. -/
structure AllowEntry where
  path : Text
  sha256Hex : Text
  deriving Repr, DecidableEq

/-- The loop of `petrush_plugin_allow_parse_file`; `none` when the list is too long. -/
def allowLoop (entries : List AllowEntry) : List Text → Option (List AllowEntry)
  | [] => some entries
  | line :: rest =>
      match lineEntry (cstr line) with
      | none => allowLoop entries rest
      | some (pathTok, hashTok) =>
          if entries.length ≥ allowMax then none
          else
            match h.realpath pathTok with
            | none => allowLoop entries rest
            | some canon => allowLoop (entries ++ [⟨canon, hashTok⟩]) rest

/-- `allow_file_mode_ok`. -/
def allowFileModeOk (st : Stat) : Bool := st.isReg && !st.otherWritable

/-- `petrush_plugin_allow_parse_file`; `none` for its `-1`. -/
def allowParseFile (path : Text) : Prog Load (Option (List AllowEntry)) :=
  if path = [] then pure none
  else
    match h.stat path with
    | none => pure none
    | some st =>
        if !allowFileModeOk st then pure none
        else
          match h.fopen path with
          | none => pure none
          | some (content, ferror) => do
              act (.opened .stream)
              let entries := allowLoop h [] (fgetsPieces lineRoom content)
              act (.closed .stream)
              pure (if ferror then none else entries)

/-- `petrush_plugin_allow_find`. -/
def allowFind (entries : List AllowEntry) (canonPath : Text) : Option Text :=
  (entries.find? fun e => e.path == canonPath).map AllowEntry.sha256Hex

/-! ## The search path -/

/-- `add_search_dir`. -/
def addSearchDir (dirs : List Text) (raw : Text) : Option (List Text) :=
  if raw.head? ≠ some '/' then some dirs
  else if dirs.length ≥ searchMax then none
  else
    match h.realpath raw with
    | some canon => some (dirs ++ [canon])
    | none => if raw.length ≥ pathMax then none else some (dirs ++ [raw])

/-- The words of `strtok_r(…, ":", …)`. -/
def colonTokens (s : Text) : List Text := (s.splitOn ':').filter (· ≠ [])

/-- A variable whose value is an absolute path. -/
def absoluteVar (name : String) : Option Text :=
  (getenv h.env name.toList).filter fun v => v.head? == some '/'

/-- `petrush_plugin_search_dirs`. -/
def searchDirs : Option (List Text) := do
  let path := (getenv h.env "PETRUSH_PLUGIN_PATH".toList).getD []
  let dirs ← (colonTokens path).foldlM (addSearchDir h) []
  match absoluteVar h "XDG_DATA_HOME", absoluteVar h "HOME" with
  | some data, _ =>
      let xdg := data ++ "/petrush/plugins".toList
      if xdg.length ≥ pathMax then none else addSearchDir h dirs xdg
  | none, some home =>
      let xdg := home ++ "/.local/share/petrush/plugins".toList
      if xdg.length ≥ pathMax then none else addSearchDir h dirs xdg
  | none, none => some dirs

/-- `name_is_safe_basename`. -/
def nameIsSafeBasename (name : Text) : Bool :=
  name != [] && !name.contains '/' && !name.contains '\\' && name != ".".toList &&
    !decide ("..".toList <:+: name)

/-- The file of a plugin in a directory. -/
def candidate (dir name : Text) : Text :=
  if name.length > 3 ∧ ".so".toList.isSuffixOf name then dir ++ '/' :: name
  else dir ++ '/' :: name ++ ".so".toList

/-- `petrush_plugin_resolve`. -/
def pluginResolve (name : Text) : Option Text :=
  if !nameIsSafeBasename name then none
  else do
    let dirs ← searchDirs h
    dirs.findSome? fun dir =>
      if (candidate dir name).length ≥ pathMax then none else h.realpath (candidate dir name)

/-- `default_allow_path`. -/
def defaultAllowPath : Option Text :=
  let bounded (path : Text) : Option Text := if path.length ≥ pathMax then none else some path
  match absoluteVar h "PETRUSH_PLUGIN_ALLOW", absoluteVar h "XDG_CONFIG_HOME",
      absoluteVar h "HOME" with
  | some env, _, _ => bounded env
  | none, some xdg, _ => bounded (xdg ++ "/petrush/plugins.allow".toList)
  | none, none, some home => bounded (home ++ "/.config/petrush/plugins.allow".toList)
  | none, none, none => none

/-! ## `petrush_plugin_load` -/

/-- The file is opened, checked and hashed. -/
def hashFile (canon : Text) : Prog Load Digest := do
  let fd ← orRefuse (h.openFile canon) [] errIo "open" canon
  act (.opened (.file fd))
  let close := [Act.closed (.file fd)]
  let st ← orRefuse ((h.fstat fd).filter Stat.isReg) close errIo "fstat" canon
  require (st.otherWritable = false) close errPerm "world-writable" canon
  require (st.size ≤ maxBytes) close errSize "too-large" canon
  let dig ← orRefuse (h.sha256 fd) close errHash "sha256" canon
  act (.closed (.file fd))
  pure dig

/-- All four are there. -/
def Symbols.entries (sy : Symbols) : Option Entries :=
  match sy.query, sy.init, sy.cmd, sy.fini with
  | some query, some init, some cmd, some fini => some ⟨query, init, cmd, fini⟩
  | _, _, _, _ => none

/-- The entry points: the four symbols, else those of the vtable. -/
def entriesOf (handle : Nat) : Option Entries :=
  let four : Symbols :=
    ⟨h.dlsym handle "petrush_plugin_query".toList, h.dlsym handle "petrush_plugin_init".toList,
      h.dlsym handle "petrush_plugin_cmd".toList, h.dlsym handle "petrush_plugin_fini".toList⟩
  match four.entries with
  | some e => some e
  | none => (h.dlsymAbi handle).bind Symbols.entries

/-- `snprintf(buf, room, "%s", s)`, when there is a string. -/
def copyName (room : Nat) (s : Option Text) : Text := (s.getD []).take (room - 1)

/-- The plugin is open: its version is asked for, it is initialised, and `out` is set. -/
def activate (canon gotHex : Text) (handle : Nat) : Prog Load Unit := do
  let close := [Act.closed (.lib handle)]
  let e ← orRefuse (entriesOf h handle) close errDlopen "dlsym" canon
  act (.query e.query)
  let info := (h.query e.query).2
  require ((h.query e.query).1 = 0) close errAbi "query" canon
  require (info.abiMajor = abiMajor) close errAbi "abi-major" canon
  require (info.abiMinor ≤ abiMinor) close errAbi "abi-minor" canon
  act (.init e.init)
  require (h.init e.init = 0) (.fini e.fini :: close) errAbi "init" canon
  if canon.length ≥ pathMax then do
    -- the only return that leaves something in `out`
    modify fun s => { s with out := { s.out with path := canon.take (pathMax - 1) } }
    forEach act (.fini e.fini :: close)
    exit errIo
  else
    modify fun s =>
      { s with
        out :=
          { handle := some handle, path := canon, sha256Hex := gotHex
            plugName := copyName 128 info.name, version := copyName 64 info.version
            abiMajor := info.abiMajor, abiMinor := info.abiMinor
            cmd := some e.cmd, fini := some e.fini, initialized := true } }

/-- `petrush_plugin_load`. -/
def pluginLoad (name : Text) (allowPath : Option Text) : Prog Load Unit := do
  modify fun s => { s with out := {} }
  let canon ← orRefuse (pluginResolve h name) [] errNotfound "notfound" name
  require (pathWritableOk h canon = true) [] errPerm "world-writable" canon
  let ause ← orRefuse (allowPath.orElse fun _ => defaultAllowPath h) [] errAllow "allow-missing" []
  let allow ← allowParseFile h ause
  let allow ← orRefuse allow [] errAllow "allow-unreadable" ause
  let expectHex ← orRefuse (allowFind allow canon) [] errAllow "not-allowlisted" canon
  let dig ← hashFile h canon
  require (sha256HexEq (sha256ToHex dig) expectHex = 0) [] errHash "hash-mismatch" canon
  let handle ← orRefuse (h.dlopen canon) [] errDlopen "dlopen" canon
  act (.opened (.lib handle))
  activate h canon (sha256ToHex dig) handle

end Loader

end Petrush.Foundation.PluginLoad
