import Petrush.Lib.Run
import Petrush.Lib.Stdio

/-!
# `wai.c`: the hardware inventory

The tree under `/sys` and `/proc` is what `opendir`, `fopen` and `access` find at a path.
A scan appends to a buffer of `cap` bytes; an error return ends it with its code.  The six
functions `walk_dir` is given share a block that reads the first string of a file
beside the entry, here `sidecar`.

Letters are those of the C locale.  Not modelled: `NULL` for the buffer, failures of
`malloc`, and errors of `fgets` on an open file.
-/

namespace Petrush.Mid.Wai

open Petrush.Lib.CText
open Petrush.Lib.Run
open Petrush.Lib.Stdio

/-! ## Constants -/

/-- `WAI_ROOT_MAX`. -/
def rootMax : Nat := 256

/-- `WAI_PATH_MAX`. -/
def pathMax : Nat := 512

/-- `-ENOSPC`. -/
def enospc : Int := -28

/-- `PETRUSH_WAI_ALL`. -/
def waiAll : Nat := 2 ^ 12 - 1

/-! ## The tree -/

/-- A name in a directory: `readdir` gives no longer ones. -/
structure Name where
  text : Text
  ne_nil : text ≠ []
  nul_notMem : nul ∉ text
  slash_notMem : '/' ∉ text
  length_le : text.length ≤ 255

/-- What the scan sees.  `root` is `g_wai_root`. -/
structure Tree where
  root : Text
  root_lt : root.length < rootMax
  opendir : Text → Option (List Name)
  fopen : Text → Option Text
  /-- `access(path, R_OK) == 0`. -/
  access : Text → Bool

/-- `petrush_wai_set_root`: what it leaves in `g_wai_root`. -/
def setRoot (root : Text) : Text :=
  let t := root.take (rootMax - 1)
  t.take 1 ++ (t.drop 1).rdropWhile (· == '/')

/-! ## Names that are banned -/

/-- `strstr(text, word) != NULL`. -/
def strstr (text : Text) (word : String) : Bool := decide (word.toList <:+: text)

/-- `name_is_banned`. -/
def nameIsBanned (name : Text) : Bool :=
  -- the copy has 128 bytes
  let low := ((cstr name).take 127).map Char.toLower
  strstr low "serial" || strstr low "uuid"

/-- `line_is_banned`. -/
def lineIsBanned (line : Text) : Bool := nameIsBanned line

/-! ## The buffer -/

/-- The buffer: its size, and the bytes written. -/
structure Buffer where
  cap : Nat
  out : Text
  deriving Repr, DecidableEq

/-- `append_bytes`. -/
def appendBytes (data : Text) : Prog Buffer Unit := fun s =>
  if s.cap = 0 then .exit s enospc
  else if s.out.length ≥ s.cap then .exit s enospc
  else if data.length > s.cap - 1 - s.out.length then .exit s enospc
  else .ok { s with out := s.out ++ data } ()

/-- `append_str`. -/
def appendStr (s : Text) : Prog Buffer Unit := appendBytes (cstr s)

/-- `append_section`. -/
def appendSection (name : String) : Prog Buffer Unit := do
  appendStr "# ".toList
  appendStr name.toList
  appendStr "\n".toList

/-! ## Paths -/

/-- `snprintf(dst, room, …)`. -/
def snprintf (room : Nat) (text : Text) : Text := text.take (room - 1)

section Scan

variable (T : Tree)

/-- `join_path`; `none` when the path does not fit. -/
def joinPath (rel : Text) : Option Text :=
  let rel := if rel.head? = some '/' then rel.tail else rel
  let path := T.root ++ '/' :: rel
  if path.length ≥ pathMax then none else some path

/-- The stream of a path. -/
def openRel (rel : Text) : Option Text := (joinPath T rel).bind T.fopen

/-! ## Files -/

/-- The string a `fgets` of `room` bytes leaves, if there is one. -/
def firstString (room : Nat) (content : Text) : Option Text :=
  (fgetsPieces (room - 1) content).head?.map cstr

/-- The newlines at the end are taken off. -/
def chomp (buf : Text) : Text := buf.rdropWhile fun c => c == '\n' || c == '\r'

/-- `read_file_filtered`. -/
def readFileFiltered (rel : String) (filterBannedLines : Bool) : Prog Buffer Unit :=
  match joinPath T rel.toList with
  | none => exit (-1)
  | some path =>
      match T.fopen path with
      | none => pure ()
      | some content =>
          forEach (fun line =>
            if filterBannedLines && lineIsBanned line then pure () else appendStr line)
            (fgetsPieces 511 content)

/-- `append_kv_file`. -/
def appendKvFile (rel key : Text) : Prog Buffer Unit :=
  if nameIsBanned key then pure ()
  else
    match joinPath T rel with
    | none => exit (-1)
    | some path =>
        match (T.fopen path).bind (firstString 256) with
        | none => pure ()
        | some buf => do
            appendStr key
            appendStr "=".toList
            appendStr (chomp buf)
            appendStr "\n".toList

/-- `%s/%s/leaf`, in a buffer of `WAI_PATH_MAX`. -/
def besideEnt (dirRel : String) (ent : Name) (leaf : String) : Text :=
  snprintf pathMax (dirRel.toList ++ '/' :: (ent.text ++ '/' :: leaf.toList))

/-- The first string of a file beside an entry, under a label. -/
def sidecar (dirRel : String) (ent : Name) (leaf : String) (room : Nat) (label : String) :
    Prog Buffer Unit :=
  match (openRel T (besideEnt dirRel ent leaf)).bind (firstString room) with
  | none => pure ()
  | some buf => do
      appendStr label.toList
      appendStr (chomp buf)

/-! ## Entries -/

/-- `ent_list_name`. -/
def entListName (dirRel : String) (ent : Name) : Prog Buffer Unit := do
  appendStr ent.text
  sidecar T dirRel ent "status" 128 " status="
  sidecar T dirRel ent "name" 128 " name="
  sidecar T dirRel ent "id" 128 " id="
  appendStr "\n".toList

/-- `ent_disk`. -/
def entDisk (dirRel : String) (ent : Name) : Prog Buffer Unit := do
  appendStr ent.text
  sidecar T dirRel ent "size" 64 " size="
  sidecar T dirRel ent "device/model" 128 " model="
  appendStr "\n".toList

/-- The file beside an entry may be read. -/
def accessBeside (dirRel : String) (ent : Name) (leaf : String) : Bool :=
  ((joinPath T (besideEnt dirRel ent leaf)).map T.access).getD false

/-- `ent_usb`. -/
def entUsb (dirRel : String) (ent : Name) : Prog Buffer Unit :=
  if !accessBeside T dirRel ent "product" && !accessBeside T dirRel ent "manufacturer" then pure ()
  else do
    appendStr ent.text
    sidecar T dirRel ent "product" 128 " product="
    sidecar T dirRel ent "manufacturer" 128 " manufacturer="
    appendStr "\n".toList

/-- `ent_pci`. -/
def entPci (dirRel : String) (ent : Name) : Prog Buffer Unit := do
  appendStr ent.text
  appendStr " ".toList
  sidecar T dirRel ent "vendor" 64 "vendor="
  sidecar T dirRel ent "device" 64 " device="
  sidecar T dirRel ent "class" 64 " class="
  appendStr "\n".toList

/-- `ent_battery`. -/
def entBattery (dirRel : String) (ent : Name) : Prog Buffer Unit := do
  appendStr ent.text
  sidecar T dirRel ent "type" 64 " type="
  sidecar T dirRel ent "status" 64 " status="
  sidecar T dirRel ent "capacity" 64 " capacity="
  appendStr "\n".toList

/-- `strncmp(ent, "thermal_zone", 12) == 0`. -/
def isThermalZone (ent : Name) : Bool := "thermal_zone".toList.isPrefixOf ent.text

/-- `ent_thermal`. -/
def entThermal (dirRel : String) (ent : Name) : Prog Buffer Unit :=
  if !isThermalZone ent then pure ()
  else do
    appendStr ent.text
    sidecar T dirRel ent "type" 64 " type="
    sidecar T dirRel ent "temp" 64 " temp="
    appendStr "\n".toList

/-- The functions `walk_dir` is given. -/
inductive EntFn where
  | listName
  | disk
  | usb
  | pci
  | battery
  | thermal
  deriving Repr, DecidableEq

/-- A call of one. -/
def EntFn.call : EntFn → String → Name → Prog Buffer Unit
  | listName => entListName T
  | disk => entDisk T
  | usb => entUsb T
  | pci => entPci T
  | battery => entBattery T
  | thermal => entThermal T

/-- An entry is passed over. -/
def skipped (ent : Name) : Bool := ent.text.head? == some '.' || nameIsBanned ent.text

/-- `walk_dir`. -/
def walkDir (dirRel : String) (fn : EntFn) : Prog Buffer Unit :=
  match joinPath T dirRel.toList with
  | none => exit (-1)
  | some path =>
      match T.opendir path with
      | none => pure ()
      | some names =>
          forEach (fun ent => if skipped ent then pure () else fn.call T dirRel ent) names

/-! ## The scan -/

/-- The keys of `scan_board`. -/
def boardKeys : List String :=
  ["board_name", "board_vendor", "product_name", "product_family", "sys_vendor", "bios_vendor",
    "bios_version", "bios_date"]

/-- `scan_board`. -/
def scanBoard : Prog Buffer Unit :=
  forEach (fun key => appendKvFile T (snprintf pathMax ("sys/class/dmi/id/".toList ++ key.toList))
    key.toList) boardKeys

/-- What a section shows. -/
inductive Source where
  | walk (dirRel : String) (fn : EntFn)
  | filtered (rel : String)
  | board
  deriving Repr, DecidableEq

/-- The sections, each with the bit of its flag. -/
def sections : List (Nat × String × Source) :=
  [(0, "disk", .walk "sys/block" .disk),
    (1, "video", .walk "sys/class/drm" .listName),
    (2, "mem", .filtered "proc/meminfo"),
    (3, "audio", .walk "sys/class/sound" .listName),
    (4, "camera", .walk "sys/class/video4linux" .listName),
    (5, "keyboard", .walk "sys/class/input" .listName),
    (6, "usb", .walk "sys/bus/usb/devices" .usb),
    (7, "pci", .walk "sys/bus/pci/devices" .pci),
    (8, "battery", .walk "sys/class/power_supply" .battery),
    (9, "thermal", .walk "sys/class/thermal" .thermal),
    (10, "cpu", .filtered "proc/cpuinfo"),
    (11, "board", .board)]

/-- The body of a section. -/
def Source.show : Source → Prog Buffer Unit
  | walk dirRel fn => walkDir T dirRel fn
  | filtered rel => readFileFiltered T rel true
  | board => scanBoard T

/-- The flags a scan goes by. -/
def effective (flags : Nat) : Nat := if flags = 0 then waiAll else flags

/-- `petrush_wai_scan_impl`. -/
def petrushWaiScanImpl (flags : Nat) : Prog Buffer Int := do
  let s ← look id
  if s.cap = 0 then exit enospc
  modify fun s => { s with out := [] }
  forEach (fun sec => onlyIf ((effective flags).testBit sec.1) do
    appendSection sec.2.1
    sec.2.2.show T) sections
  let s ← look id
  pure (BitVec.ofNat 32 s.out.length).toInt

end Scan

/-- `petrush_wai_scan`: the value returned, and the inventory. -/
def petrushWaiScan (T : Tree) (flags cap : Nat) : Int × Text :=
  match petrushWaiScanImpl T flags ⟨cap, []⟩ with
  | .ok s n => (n, s.out)
  | .exit s code => (code, s.out)
  | .cut s => (-1, s.out)

/-! ## `builtin_wai` -/

/-- `parse_wai_flag`: the bit of a flag. -/
def parseWaiFlag (arg : Text) : Option Nat :=
  (sections.find? fun sec => '-' :: sec.2.1.toList == arg).map Prod.fst

/-- What the arguments ask for. -/
inductive Request where
  | scan (flags : Nat)
  | help
  | unknown (arg : Text)
  deriving Repr, DecidableEq

/-- The loop over the arguments. -/
def parseArgs : Nat → List Text → Request
  | flags, [] => .scan flags
  | flags, a :: args =>
      if a = "-h".toList ∨ a = "--help".toList then .help
      else
        match parseWaiFlag a with
        | none => .unknown a
        | some bit => parseArgs (flags ||| 1 <<< bit) args

/-- The lines of the help. -/
def helpText : Text :=
  ("wai - hardware inventory via sysfs/proc (no root)\n" ++
    "Usage: wai [-disk] [-video] [-mem] [-audio] [-camera] " ++
    "[-keyboard] [-usb] [-pci] [-battery] [-thermal] [-cpu] [-board]\n" ++
    "No flags: all sections. Skips serial/uuid.\n").toList

/-- `builtin_wai`: the status, and what it prints on the two streams. -/
def builtinWai (T : Tree) (args : List Text) : Int × Text × Text :=
  match parseArgs 0 args with
  | .help => (0, helpText, [])
  | .unknown a => (2, [], "wai: unknown flag '".toList ++ a ++ "'\n".toList)
  | .scan flags =>
      let r := petrushWaiScan T flags 65536
      if r.1 < 0 then
        if r.1 = enospc then (1, [], "wai: output truncated\n".toList)
        else (1, [], "wai: scan failed\n".toList)
      else if r.1 > 0 then
        (0, r.2 ++ if r.2.getLast? ≠ some '\n' then ['\n'] else [], [])
      else (0, [], [])

end Petrush.Mid.Wai
