import Petrush.Lib.Stdlib
import Petrush.Lib.Wire
import Petrush.Mid.Wai

/-!
# `netcom.c`: network interfaces

The answer of the kernel to a request for its links is a series of datagrams; each is read
into one buffer, which keeps what an earlier one left behind its end.  A read outside of
the buffer has no value.

`append_bytes`, `append_str`, `append_section`, `join_path` and the overlay root are those of
`wai.c`.  Letters are those of the C locale.  Not modelled: `NULL` for the buffer, failures of
`malloc`, errors of `fgets` on an open file, and a sign or `0x` in the `CapEff` line.
-/

namespace Petrush.Mid.Netcom

open Petrush.Lib.CText
open Petrush.Lib.Run
open Petrush.Lib.Stdio
open Petrush.Lib.Stdlib
open Petrush.Lib.Wire
open Petrush.Mid.Wai

/-! ## Constants -/

/-- `IFNAMSIZ`. -/
def ifnamsiz : Nat := 16

/-- `NL_IF_MAX`. -/
def nlIfMax : Nat := 64

/-- The size of the buffer of `netlink_dump_links`. -/
def bufSize : Nat := 8192

def nlmsgError : Nat := 2

def nlmsgDone : Nat := 3

def rtmNewlink : Nat := 16

def iflaIfname : Nat := 3

def iflaOperstate : Nat := 16

/-! ## The links of the kernel -/

/-- `struct nl_if_info`, with the string in its name. -/
@[ext] structure LinkInfo where
  name : Text
  flags : Nat
  operstate : Nat
  hasOperstate : Bool
  deriving Repr, DecidableEq

/-- The string that some bytes begin with. -/
def stringOf (bytes : Bytes) : Text := cstr (bytes.map fun b => Char.ofNat b.toNat)

/-- `RTA_OK`. -/
def rtaOk (rta : Bytes) (len : Int) : Option Bool :=
  if len < 4 then some false
  else (readField 2 rta).map fun (l : Nat) => decide (4 ≤ l ∧ (l : Int) ≤ len)

/-- What one attribute, of length `l`, does to the slot. -/
def takeAttr (rta : Bytes) (l : Nat) (slot : LinkInfo) : Option LinkInfo := do
  let type ← readField 2 (rta.drop 2)
  if type = iflaIfname then
    let n := if l - 4 ≥ ifnamsiz then ifnamsiz - 1 else l - 4
    if n ≤ (rta.drop 4).length then some { slot with name := stringOf ((rta.drop 4).take n) }
    else none
  else if type = iflaOperstate ∧ l - 4 ≥ 1 then
    (readField 1 (rta.drop 4)).map fun state =>
      { slot with operstate := state, hasOperstate := true }
  else some slot

/-- The loop over the attributes, with a bound on its turns. -/
def takeAttrs : Nat → Bytes → Int → LinkInfo → Option LinkInfo
  | 0, _, _, _ => none
  | n + 1, rta, len, slot => do
      if ← rtaOk rta len then
        let l ← readField 2 rta
        let slot ← takeAttr rta l slot
        takeAttrs n (rta.drop (align l)) (len - align l) slot
      else some slot

/-- The slot that a message `RTM_NEWLINK` of length `len` fills. -/
def newLink (nh : Bytes) (len : Nat) : Option LinkInfo := do
  let flags ← readField 4 (nh.drop 24)
  takeAttrs (nh.length + 1) (nh.drop 32) (Int.bmod (len - 32) (2 ^ 32)) ⟨[], flags, 0, false⟩

/-- `NLMSG_OK(nh, (unsigned)nr)`. -/
def nlmsgOk (nh : Bytes) (nr : Int) : Option Bool :=
  let room := nr % 2 ^ 32
  if room < 16 then some false
  else (readField 4 nh).map fun (len : Nat) => decide (16 ≤ len ∧ (len : Int) ≤ room)

/-- What a message of length `len` that is not the last adds to the links. -/
def takeMessage (nh : Bytes) (len type : Nat) (links : List LinkInfo) : Option (List LinkInfo) :=
  if type ≠ rtmNewlink then some links
  else if links.length ≥ nlIfMax then some links
  else (newLink nh len).map fun slot => if slot.name ≠ [] then links ++ [slot] else links

/-- The loop over the messages of a datagram, with a bound on its turns: whether the answer is
over, and the links. -/
def takeMessages : Nat → Bytes → Int → List LinkInfo → Option (Bool × List LinkInfo)
  | 0, _, _, _ => none
  | n + 1, nh, nr, links => do
      if ← nlmsgOk nh nr then
        let len ← readField 4 nh
        let type ← readField 2 (nh.drop 4)
        if type = nlmsgDone ∨ type = nlmsgError then some (true, links)
        else
          let links ← takeMessage nh len type links
          -- `NLMSG_ALIGN` is computed in 32 bits
          let step := align len % 2 ^ 32
          takeMessages n (nh.drop step) (nr - step) links
      else some (false, links)

/-- The loop over the datagrams, up to a `poll` or `recv` that gives none. -/
def takeDatagrams : Bytes → List Bytes → List LinkInfo → Option (List LinkInfo)
  | _, [], links => some links
  | buf, datagram :: datagrams, links => do
      let data := datagram.take bufSize
      if data = [] then some links
      else
        let buf := data ++ buf.drop data.length
        let r ← takeMessages (buf.length + 1) buf data.length links
        if r.1 then some r.2 else takeDatagrams buf datagrams r.2

/-- `netlink_dump_links`; the socket may not be had, and the buffer holds anything. -/
def netlinkDumpLinks (T : Tree) (opened : Bool) (stale : Bytes) (datagrams : List Bytes) :
    Option (List LinkInfo) :=
  if T.root ≠ [] ∨ ¬ opened then some [] else takeDatagrams stale datagrams []

/-! ## The scan -/

/-- `ARPHRD_ETHER`. -/
def arphrdEther : Int := 1

/-- `ARPHRD_LOOPBACK`. -/
def arphrdLoopback : Int := 772

/-- `PETRUSH_NETCOM_WIFI`. -/
def netcomWifi : Nat := 1

/-- `PETRUSH_NETCOM_ETH`. -/
def netcomEth : Nat := 2

/-- `PETRUSH_NETCOM_BT`. -/
def netcomBt : Nat := 4

/-- The tree, and what `stat` and `access(path, F_OK)` find in it. -/
structure Sys extends Tree where
  isDir : Text → Bool
  isThere : Text → Bool

/-- `iface_name_ok`. -/
def ifaceNameOk (iface : Text) : Bool :=
  !iface.isEmpty && decide (iface.length < ifnamsiz) &&
    iface.all fun c => isalnum c || c == '_' || c == '.' || c == ':' || c == '-'

def operstateNames : List String :=
  ["unknown", "notpresent", "down", "lowerlayerdown", "testing", "dormant", "up"]

/-- `operstate_name`. -/
def operstateName (fromSysfs : Text) (links : List LinkInfo) (ifname : Text) : Text :=
  if fromSysfs ≠ [] then fromSysfs
  else
    match links.find? fun link => link.name == ifname && link.hasOperstate with
    | some link => (operstateNames.getD link.operstate "unknown").toList
    | none => "unknown".toList

section Scan

variable (S : Sys)

/-- `read_trim`. -/
def readTrim (rel : Text) (room : Nat) : Option Text :=
  ((openRel S.toTree rel).bind (firstString room)).map chomp

/-- `path_is_dir`. -/
def pathIsDir (rel : Text) : Bool := (joinPath S.toTree rel).any S.isDir

/-- `path_exists`. -/
def pathExists (rel : Text) : Bool := (joinPath S.toTree rel).any S.isThere

/-- `iface_is_wifi`. -/
def ifaceIsWifi (ent : Name) : Bool :=
  pathIsDir S (besideEnt "sys/class/net" ent "wireless") ||
    pathExists S (besideEnt "sys/class/net" ent "wireless") ||
    pathExists S (besideEnt "sys/class/net" ent "phy80211")

/-- `append_net_iface`. -/
def appendNetIface (links : List LinkInfo) (wifi : Bool) (ent : Name) : Prog Buffer Unit :=
  match readTrim S (besideEnt "sys/class/net" ent "type") 32 with
  | none => pure ()
  | some typebuf =>
      let typeVal := (strtol typebuf).value
      if typeVal = arphrdLoopback then pure ()
      else if typeVal ≠ arphrdEther then pure ()
      else if ifaceIsWifi S ent ≠ wifi then pure ()
      else do
        let opbuf := (readTrim S (besideEnt "sys/class/net" ent "operstate") 64).getD []
        appendStr ent.text
        appendStr " type=".toList
        appendStr typebuf
        appendStr " operstate=".toList
        appendStr (operstateName opbuf links ent.text)
        if wifi then appendStr " wireless=1".toList else pure ()
        appendStr "\n".toList

/-- The loop over a directory of `scan_net_class` and `scan_bt`. -/
def scanDir (rel : String) (append : Name → Prog Buffer Unit) : Prog Buffer Unit :=
  match joinPath S.toTree rel.toList with
  | none => exit (-1)
  | some path =>
      match S.opendir path with
      | none => pure ()
      | some entries =>
          forEach (fun ent =>
            if ent.text.head? = some '.' then pure ()
            else if !ifaceNameOk ent.text then pure ()
            else append ent) entries

/-- `scan_net_class`. -/
def scanNetClass (links : List LinkInfo) (wifi : Bool) : Prog Buffer Unit :=
  scanDir S "sys/class/net" (appendNetIface S links wifi)

/-- `append_bt_dev`. -/
def appendBtDev (dev : Name) : Prog Buffer Unit := do
  let part (key : String) (value : Option Text) : Prog Buffer Unit :=
    match value with
    | none => pure ()
    | some value => do
        appendStr key.toList
        appendStr value
  appendStr dev.text
  part " name=" (readTrim S (besideEnt "sys/class/bluetooth" dev "name") 128)
  part " address=" (readTrim S (besideEnt "sys/class/bluetooth" dev "address") 64)
  appendStr "\n".toList

/-- `scan_bt`. -/
def scanBt : Prog Buffer Unit := scanDir S "sys/class/bluetooth" (appendBtDev S)

/-- The sections, each with its flag. -/
def netSections (links : List LinkInfo) : List (Nat × String × Prog Buffer Unit) :=
  [(netcomWifi, "wifi", scanNetClass S links true), (netcomEth, "eth", scanNetClass S links false),
    (netcomBt, "bt", scanBt S)]

/-- `petrush_netcom_scan_impl` behind the dump. -/
def petrushNetcomScanImpl (links : List LinkInfo) (flags : Nat) : Prog Buffer Int := do
  let s ← look id
  if s.cap = 0 then exit enospc
  modify fun s => { s with out := [] }
  let flags := if flags = 0 then netcomWifi ||| netcomEth ||| netcomBt else flags
  forEach (fun sec => onlyIf (flags &&& sec.1 ≠ 0) do
    appendSection sec.2.1
    sec.2.2) (netSections S links)
  let s ← look id
  pure (BitVec.ofNat 32 s.out.length).toInt

end Scan

/-- `petrush_netcom_scan` behind the dump: the value returned, and the text. -/
def petrushNetcomScan (S : Sys) (links : List LinkInfo) (flags cap : Nat) : Int × Text :=
  match petrushNetcomScanImpl S links flags ⟨cap, []⟩ with
  | .ok s n => (n, s.out)
  | .exit s code => (code, s.out)
  | .cut s => (-1, s.out)

end Petrush.Mid.Netcom
