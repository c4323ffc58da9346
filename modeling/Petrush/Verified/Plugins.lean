import Petrush.Foundation.PluginLoad

/-!
# Which plugins are initialised

The policy of the loader is `Authorised`: when a plugin's `init` is called, its file
and every directory above it are closed to others, the first line of the allow-list
that names it carries its digest, and its version is one the host knows.  Every other
load is an error that leaves nothing behind.

All of it holds of every load but one clause (`load_goes`): the list is read with
`fgets`, which returns a line longer than its buffer in several pieces, and each piece
is taken for a line.

## Main results

* `load_goes` — what a load that goes through has passed, and what an error leaves.
* `readsAsLines_of_short_lines` — lines shorter than the buffer are safe.
* `policy_iff` — the policy, with its exact condition.
* `commentLine_loads` — text inside a comment authorises a plugin.
-/

namespace Petrush.Verified.Plugins

open Petrush.Lib.CText
open Petrush.Lib.Run
open Petrush.Lib.Stdio
open Petrush.Foundation.PluginLoad

/-! ## The policy -/

/-- A directory above a path. -/
def Above (dir path : Text) : Prop := dir = ['/'] ∨ ∃ c d rest, dir = c :: d ∧ path = dir ++ '/' :: rest

/-- The hash on the first whole line of the list that names `canon`. -/
def namedHash (h : Host) (content canon : Text) : Option Text :=
  (((lines content).filterMap lineEntry).find? fun e => h.realpath e.1 == some canon).map Prod.snd

/-- The hash the loader finds for `canon`. -/
def readHash (h : Host) (content canon : Text) : Option Text :=
  (allowLoop h [] (fgetsPieces lineRoom content)).bind fun entries => allowFind entries canon

/-- The path of the allow-list. -/
def listPath (h : Host) (allowPath : Option Text) : Option Text :=
  allowPath.orElse fun _ => defaultAllowPath h

/-- What stands behind a load: the canonical path, the list and its bytes, the hash in
it, the open file and its digest, the library and its entry points. -/
structure Evidence where
  canon : Text
  list : Text
  content : Text
  hex : Text
  fd : Nat
  dig : Digest
  handle : Nat
  entries : Entries

/-- The checks of one load; `hash` looks a path up in the bytes of the list. -/
structure Passed (hash : Text → Text → Option Text) (h : Host) (name : Text)
    (allowPath : Option Text) (v : Evidence) : Prop where
  resolved : pluginResolve h name = some v.canon
  regular : ∃ st, h.lstat v.canon = some st ∧ st.isReg = true ∧ st.otherWritable = false
  above : ∀ dir, Above dir v.canon → ∃ st, h.stat dir = some st ∧ st.isDir = true ∧
    st.otherWritable = false
  list_path : listPath h allowPath = some v.list
  list_ne : v.list ≠ []
  list_mode : ∃ st, h.stat v.list = some st ∧ st.isReg = true ∧ st.otherWritable = false
  list_bytes : h.fopen v.list = some (v.content, false)
  listed : hash v.content v.canon = some v.hex
  file : h.openFile v.canon = some v.fd
  size : ∃ st, h.fstat v.fd = some st ∧ st.isReg = true ∧ st.otherWritable = false ∧
    st.size ≤ maxBytes
  hashed : h.sha256 v.fd = some v.dig
  digest : parseSha256Hex v.hex = some v.dig.bytes
  opened : h.dlopen v.canon = some v.handle
  symbols : entriesOf h v.handle = some v.entries
  major : (h.query v.entries.query).2.abiMajor = abiMajor
  minor : (h.query v.entries.query).2.abiMinor ≤ abiMinor

/-- The policy of one load. -/
def Authorised (h : Host) (name : Text) (allowPath : Option Text) : Prop :=
  ∃ v, Passed (namedHash h) h name allowPath v

/-- The handles that are open, the last first. -/
def openHandles : List Act → List Handle
  | [] => []
  | .opened x :: acts => x :: openHandles acts
  | .closed x :: acts => (openHandles acts).erase x
  | _ :: acts => openHandles acts

/-- A plugin's `init` was called. -/
def Initialised (acts : List Act) : Prop := ∃ fn, Act.init fn ∈ acts

/-- A load obeys the policy: it goes through, or calls `init`, under its authority only,
and an error leaves nothing. -/
structure Obeys (h : Host) (name : Text) (allowPath : Option Text) (o : Outcome Load Unit) :
    Prop where
  authorised : o.value = some () ∨ Initialised o.state.acts → Authorised h name allowPath
  error : o.value = none → ∃ s code, o = .exit s code ∧ code < 0 ∧ s.out = {} ∧
    openHandles s.acts = []

/-! ## How a step goes -/

/-- From a state with `P` the program returns with `Q`, or is an error return, with a
negative code and `E`. -/
def Goes {α : Type} (P : Load → Prop) (c : Prog Load α) (Q : α → Load → Prop)
    (E : Load → Prop) : Prop :=
  ∀ s, P s →
    match c s with
    | .ok t a => Q a t
    | .exit t code => code < 0 ∧ E t
    | .cut _ => False

section Rules

variable {α β : Type} {P : Load → Prop} {E : Load → Prop}

theorem Goes.pure {Q : α → Load → Prop} {a : α} (h : ∀ s, P s → Q a s) :
    Goes P (pure a) Q E := h

theorem Goes.modify {Q : Unit → Load → Prop} {f : Load → Load} (h : ∀ s, P s → Q () (f s)) :
    Goes P (modify f) Q E := h

theorem Goes.act {Q : Unit → Load → Prop} {a : Act}
    (h : ∀ s, P s → Q () { s with acts := a :: s.acts }) : Goes P (act a) Q E := h

theorem Goes.bind {c : Prog Load α} {f : α → Prog Load β} {M : α → Load → Prop}
    {Q : β → Load → Prop} (hc : Goes P c M E) (hf : ∀ a, Goes (M a) (f a) Q E) :
    Goes P (c >>= f) Q E := by
  intro s hs
  have hcs := hc s hs
  rw [bind_apply, Prog.bind]
  cases hrun : c s with
  | ok t a =>
      rw [hrun] at hcs
      exact hf a t hcs
  | exit t code =>
      rw [hrun] at hcs
      exact hcs
  | cut t =>
      rw [hrun] at hcs
      exact hcs

theorem Goes.imp {c : Prog Load α} {P' : Load → Prop} {Q Q' : α → Load → Prop}
    (h : Goes P c Q E) (hp : ∀ s, P' s → P s) (hq : ∀ a s, Q a s → Q' a s) : Goes P' c Q' E := by
  intro s hs
  have hrun := h s (hp s hs)
  cases hc : c s with
  | ok t a =>
      rw [hc] at hrun
      exact hq a t hrun
  | exit t code =>
      rw [hc] at hrun
      exact hrun
  | cut t =>
      rw [hc] at hrun
      exact hrun

end Rules

/-- What is left when `undo` has been done and the message written. -/
def undone (undo : List Act) (reason : String) (path : Text) (s : Load) : Load :=
  { s with acts := .deny reason.toList path :: (undo.reverse ++ s.acts) }

theorem forEach_act (undo : List Act) (s : Load) :
    forEach act undo s = .ok { s with acts := undo.reverse ++ s.acts } () := by
  induction undo generalizing s with
  | nil => rfl
  | cons a undo ih =>
      show forEach act undo { s with acts := a :: s.acts } = _
      rw [ih, List.reverse_cons, List.append_assoc]
      rfl

theorem refuse_apply {α : Type} (undo : List Act) (code : Int) (reason : String) (path : Text)
    (s : Load) :
    (refuse undo code reason path : Prog Load α) s = .exit (undone undo reason path s) code := by
  rw [refuse, bind_apply, Prog.bind, forEach_act]
  rfl

theorem Goes.ofOption {α : Type} {P : Load → Prop} {E : Load → Prop} {o : Option α}
    {undo : List Act} {code : Int} {reason : String} {path : Text} (hcode : code < 0)
    (he : ∀ s, P s → E (undone undo reason path s)) :
    Goes P (orRefuse o undo code reason path) (fun a s => P s ∧ o = some a) E := by
  intro s hs
  cases o with
  | none =>
      rw [orRefuse, refuse_apply]
      exact ⟨hcode, he s hs⟩
  | some a => exact ⟨hs, rfl⟩

theorem Goes.ofCheck {P : Load → Prop} {E : Load → Prop} {p : Prop} [Decidable p]
    {undo : List Act} {code : Int} {reason : String} {path : Text} (hcode : code < 0)
    (he : ∀ s, P s → E (undone undo reason path s)) :
    Goes P (require p undo code reason path) (fun _ s => P s ∧ p) E := by
  intro s hs
  by_cases hp : p
  · rw [require, if_pos hp]
    exact ⟨hs, hp⟩
  · rw [require, if_neg hp, refuse_apply]
    exact ⟨hcode, he s hs⟩

/-! ## What is open -/

/-- Nothing is in `out`, these handles are open, and no plugin was initialised. -/
structure Holding (hs : List Handle) (s : Load) : Prop where
  out : s.out = {}
  handles : openHandles s.acts = hs
  fresh : ¬ Initialised s.acts

/-- What an error leaves; an initialised plugin had the authority `G`. -/
structure Left (G : Prop) (s : Load) : Prop where
  out : s.out = {}
  handles : openHandles s.acts = []
  authorised : Initialised s.acts → G

theorem Holding.left {G : Prop} {s : Load} (h : Holding [] s) (reason : String) (path : Text) :
    Left G (undone [] reason path s) := by
  refine ⟨h.out, h.handles, ?_⟩
  rintro ⟨fn, hfn⟩
  rcases List.mem_cons.mp hfn with heq | hmem
  · contradiction
  · exact absurd ⟨fn, hmem⟩ h.fresh

theorem Holding.leftClosing {G : Prop} {s : Load} {x : Handle} (h : Holding [x] s)
    (reason : String) (path : Text) : Left G (undone [.closed x] reason path s) := by
  refine ⟨h.out, ?_, ?_⟩
  · show (openHandles s.acts).erase x = []
    rw [h.handles, List.erase_cons_head]
  · rintro ⟨fn, hfn⟩
    rcases List.mem_cons.mp hfn with heq | hmem
    · contradiction
    · rcases List.mem_cons.mp hmem with heq | hmem
      · contradiction
      · exact absurd ⟨fn, hmem⟩ h.fresh

theorem Holding.opened {hs : List Handle} {s : Load} (h : Holding hs s) (x : Handle) :
    Holding (x :: hs) { s with acts := .opened x :: s.acts } := by
  refine ⟨h.out, ?_, ?_⟩
  · show x :: openHandles s.acts = x :: hs
    rw [h.handles]
  · rintro ⟨fn, hfn⟩
    rcases List.mem_cons.mp hfn with heq | hmem
    · contradiction
    · exact h.fresh ⟨fn, hmem⟩

theorem Holding.closed {x : Handle} {hs : List Handle} {s : Load} (h : Holding (x :: hs) s) :
    Holding hs { s with acts := .closed x :: s.acts } := by
  refine ⟨h.out, ?_, ?_⟩
  · show (openHandles s.acts).erase x = hs
    rw [h.handles, List.erase_cons_head]
  · rintro ⟨fn, hfn⟩
    rcases List.mem_cons.mp hfn with heq | hmem
    · contradiction
    · exact h.fresh ⟨fn, hmem⟩

theorem Holding.query {hs : List Handle} {s : Load} (h : Holding hs s) (fn : Nat) :
    Holding hs { s with acts := .query fn :: s.acts } := by
  refine ⟨h.out, h.handles, ?_⟩
  rintro ⟨gn, hgn⟩
  rcases List.mem_cons.mp hgn with heq | hmem
  · contradiction
  · exact h.fresh ⟨gn, hmem⟩

/-! ## The steps -/

section Steps

variable {h : Host} {G : Prop}

theorem lastSlash_append (path rest : Text) (hrest : '/' ∉ rest) :
    lastSlash (path ++ '/' :: rest) = some path.length := by
  have hidx : (rest.reverse ++ '/' :: path.reverse).idxOf '/' = rest.length := by
    rw [List.idxOf_append_of_notMem (by simpa using hrest), List.idxOf_cons_self]
    simp
  have hrev : (path ++ '/' :: rest).reverse = rest.reverse ++ '/' :: path.reverse := by simp
  rw [lastSlash, if_pos (by simp), hrev, hidx]
  simp only [List.length_append, List.length_cons]
  congr 1
  omega

/-- A text with a slash ends in one and a name. -/
theorem split_lastSlash {path : Text} (hmem : '/' ∈ path) :
    ∃ dir rest, '/' ∉ rest ∧ path = dir ++ '/' :: rest := by
  obtain ⟨l, r, hrev, hl⟩ := List.eq_append_cons_of_mem (List.mem_reverse.mpr hmem)
  refine ⟨r.reverse, l.reverse, by simpa using hl, ?_⟩
  rw [← List.reverse_reverse path, hrev]
  simp

/-- One turn of the walk. -/
theorem walkDirs_append (n : Nat) (dir rest : Text) (hrest : '/' ∉ rest) :
    walkDirs h (n + 1) (dir ++ '/' :: rest) =
      if dir = [] then dirOk h ['/'] else dirOk h dir && walkDirs h n dir := by
  rw [walkDirs, lastSlash_append dir rest hrest]
  cases dir with
  | nil => rfl
  | cons c dir =>
      have htake : (c :: dir ++ '/' :: rest).take (dir.length + 1) = c :: dir :=
        List.take_left' rfl
      show (dirOk h ((c :: dir ++ '/' :: rest).take (dir.length + 1)) &&
        walkDirs h n ((c :: dir ++ '/' :: rest).take (dir.length + 1))) = _
      rw [htake, if_neg (List.cons_ne_nil c dir)]

/-- **The walk looks at every directory above the path.** -/
theorem walkDirs_above : ∀ (n : Nat) (path : Text), walkDirs h n path = true →
    ∀ dir, Above dir path → dirOk h dir = true := by
  intro n
  induction n with
  | zero =>
      intro path hwalk
      contradiction
  | succ n ih =>
      intro path hwalk dir habove
      have hmem : '/' ∈ path := by
        by_contra hmem
        rw [walkDirs, lastSlash, if_neg hmem] at hwalk
        contradiction
      obtain ⟨last, rest, hrest, rfl⟩ := split_lastSlash hmem
      rw [walkDirs_append n last rest hrest] at hwalk
      by_cases hlast : last = []
      · subst hlast
        rw [if_pos rfl] at hwalk
        rcases habove with rfl | ⟨c, d, more, rfl, heq⟩
        · exact hwalk
        · -- the only slash is the first byte
          injection heq with hc htail
          rw [htail] at hrest
          simp at hrest
      · rw [if_neg hlast, Bool.and_eq_true] at hwalk
        rcases habove with rfl | ⟨c, d, more, rfl, heq⟩
        · exact ih last hwalk.2 _ (Or.inl rfl)
        · rcases List.append_eq_append_iff.mp heq with ⟨mid, hdir, htail⟩ | ⟨mid, hdir, htail⟩
          · cases mid with
            | nil =>
                rw [List.append_nil] at hdir
                rw [hdir]
                exact hwalk.1
            | cons x mid =>
                injection htail with hx htail
                rw [htail] at hrest
                simp at hrest
          · cases mid with
            | nil =>
                rw [List.append_nil] at hdir
                rw [← hdir]
                exact hwalk.1
            | cons x mid =>
                injection htail with hx htail
                subst hx
                exact ih last hwalk.2 _ (Or.inr ⟨c, d, mid, rfl, hdir⟩)

theorem Above.append {dir path : Text} (habove : Above dir path) (rest : Text) :
    Above dir (path ++ '/' :: rest) := by
  rcases habove with rfl | ⟨c, d, more, rfl, rfl⟩
  · exact Or.inl rfl
  · exact Or.inr ⟨c, d, more ++ '/' :: rest, rfl, by simp⟩

/-- A walk over closed directories goes through. -/
theorem walkDirs_ok : ∀ (n : Nat) (path : Text), (∀ dir, Above dir path → dirOk h dir = true) →
    path.length ≤ n → '/' ∈ path → path.head? = some '/' → walkDirs h n path = true := by
  intro n
  induction n with
  | zero =>
      intro path _ hlen hmem
      rw [List.length_eq_zero_iff.mp (Nat.le_zero.mp hlen)] at hmem
      contradiction
  | succ n ih =>
      intro path hdirs hlen hmem hhead
      obtain ⟨last, rest, hrest, rfl⟩ := split_lastSlash hmem
      rw [walkDirs_append n last rest hrest]
      cases last with
      | nil => exact hdirs ['/'] (Or.inl rfl)
      | cons c last =>
          obtain rfl : c = '/' := Option.some.inj hhead
          rw [if_neg (List.cons_ne_nil _ _), Bool.and_eq_true]
          refine ⟨hdirs _ (Or.inr ⟨'/', last, rest, rfl, rfl⟩),
            ih _ (fun dir habove => hdirs dir (habove.append rest)) ?_ (by simp) rfl⟩
          simp only [List.length_append, List.length_cons] at hlen ⊢
          omega

/-- What a path has passed. -/
theorem pathWritableOk_spec {path : Text} (hok : pathWritableOk h path = true) :
    (∃ st, h.lstat path = some st ∧ st.isReg = true ∧ st.otherWritable = false) ∧
      ∀ dir, Above dir path → ∃ st, h.stat dir = some st ∧ st.isDir = true ∧
        st.otherWritable = false := by
  unfold pathWritableOk at hok
  split at hok
  · contradiction
  · split at hok
    · contradiction
    next st hst =>
      simp only [Bool.and_eq_true, Bool.not_eq_true'] at hok
      refine ⟨⟨st, hst, hok.1.1.1, hok.1.1.2⟩, fun dir habove => ?_⟩
      have hdir := walkDirs_above _ _ hok.2 dir habove
      unfold dirOk at hdir
      split at hdir
      · contradiction
      next st hst =>
        simp only [Bool.and_eq_true, Bool.not_eq_true'] at hdir
        exact ⟨st, hst, hdir.1, hdir.2⟩

/-- The list at a path is trusted, and is read as these entries. -/
def Listed (h : Host) (path : Text) (entries : List AllowEntry) : Prop :=
  path ≠ [] ∧ ∃ content,
    (∃ st, h.stat path = some st ∧ st.isReg = true ∧ st.otherWritable = false) ∧
    h.fopen path = some (content, false) ∧
    allowLoop h [] (fgetsPieces lineRoom content) = some entries

theorem allowParseFile_goes (path : Text) :
    Goes (Holding []) (allowParseFile h path)
      (fun o s => Holding [] s ∧ ∀ entries, o = some entries → Listed h path entries)
      (Left G) := by
  have hnone : ∀ s, Holding [] s → Holding [] s ∧ ∀ entries : List AllowEntry,
      none = some entries → Listed h path entries := fun s hs => ⟨hs, fun entries he => nomatch he⟩
  unfold allowParseFile
  split
  · exact Goes.pure hnone
  next hne =>
    split
    · exact Goes.pure hnone
    next st hst =>
      split
      · exact Goes.pure hnone
      next hmode =>
        simp only [allowFileModeOk, Bool.not_eq_true', Bool.not_eq_false, Bool.and_eq_true] at hmode
        split
        · exact Goes.pure hnone
        next content ferror hopen =>
          apply Goes.bind (Goes.act (Q := fun _ => Holding [.stream]) fun s hs => hs.opened _)
          intro _
          apply Goes.bind (Goes.act (Q := fun _ => Holding []) fun s hs => hs.closed)
          intro _
          apply Goes.pure
          intro s hs
          refine ⟨hs, fun entries hentries => ⟨hne, content, ⟨st, hst, hmode.1, hmode.2⟩, ?_⟩⟩
          cases ferror with
          | true => contradiction
          | false => exact ⟨hopen, hentries⟩

theorem hashFile_goes (canon : Text) :
    Goes (Holding []) (hashFile h canon)
      (fun dig s => Holding [] s ∧ ∃ fd, h.openFile canon = some fd ∧ h.sha256 fd = some dig ∧
        ∃ st, h.fstat fd = some st ∧ st.isReg = true ∧ st.otherWritable = false ∧
          st.size ≤ maxBytes)
      (Left G) := by
  unfold hashFile
  apply Goes.bind (Goes.ofOption (by decide) fun s hs => hs.left _ _)
  intro fd
  apply Goes.bind (Goes.act (Q := fun _ s => Holding [.file fd] s ∧ h.openFile canon = some fd)
    fun s hs => ⟨hs.1.opened _, hs.2⟩)
  intro _
  apply Goes.bind (Goes.ofOption (by decide) fun s hs => hs.1.leftClosing _ _)
  intro st
  apply Goes.bind (Goes.ofCheck (by decide) fun s hs => hs.1.1.leftClosing _ _)
  intro _
  apply Goes.bind (Goes.ofCheck (by decide) fun s hs => hs.1.1.1.leftClosing _ _)
  intro _
  apply Goes.bind (Goes.ofOption (by decide) fun s hs => hs.1.1.1.1.leftClosing _ _)
  intro dig
  apply Goes.bind (Goes.act (Q := fun _ s => Holding [] s ∧ (((_ ∧ _) ∧ _) ∧ _) ∧ _)
    fun s hs => ⟨hs.1.1.1.1.1.closed, ⟨⟨⟨hs.1.1.1.1.2, hs.1.1.1.2⟩, hs.1.1.2⟩, hs.1.2⟩, hs.2⟩)
  intro _
  apply Goes.pure
  rintro s ⟨hs, ⟨⟨⟨hopen, hstat⟩, hmode⟩, hsize⟩, hdig⟩
  obtain ⟨hst, hreg⟩ := Option.filter_eq_some_iff.mp hstat
  exact ⟨hs, fd, hopen, hdig, st, hst, hreg, hmode, hsize⟩

end Steps

/-! ## Digests -/

theorem hexNibble_lt {c : Char} {n : Nat} (h : hexNibble c = some n) : n < 16 := by
  unfold hexNibble at h
  split_ifs at h with hdigit hlower hupper
  · have hle : c.toNat ≤ '9'.toNat := hdigit.2
    rw [← Option.some.inj h]
    change c.toNat ≤ 57 at hle
    show c.toNat - 48 < 16
    omega
  · have hle : c.toNat ≤ 'f'.toNat := hlower.2
    rw [← Option.some.inj h]
    change c.toNat ≤ 102 at hle
    show 10 + (c.toNat - 97) < 16
    omega
  · have hle : c.toNat ≤ 'F'.toNat := hupper.2
    rw [← Option.some.inj h]
    change c.toNat ≤ 70 at hle
    show 10 + (c.toNat - 65) < 16
    omega

theorem hexNibble_hexDigit : ∀ n < 16, hexNibble (hexDigit n) = some n := by decide

theorem parseHexBytes_length {n : Nat} : ∀ {hex : Text} {bytes : List UInt8},
    parseHexBytes n hex = some bytes → bytes.length = n := by
  induction n with
  | zero =>
      intro hex bytes h
      cases hex with
      | nil =>
          rw [← Option.some.inj h]
          rfl
      | cons a hex => contradiction
  | succ n ih =>
      intro hex bytes h
      match hex with
      | [] => contradiction
      | [a] => contradiction
      | a :: b :: hex =>
          simp only [parseHexBytes, Option.bind_eq_bind, Option.bind_eq_some_iff,
            Option.pure_def, Option.some.injEq] at h
          obtain ⟨hi, -, lo, -, rest, hrest, rfl⟩ := h
          rw [List.length_cons, ih hrest]

/-- The digits of a digest are read back. -/
theorem parseHexBytes_digits (bytes : List UInt8) :
    parseHexBytes bytes.length
      (bytes.flatMap fun b => [hexDigit (b.toNat / 16), hexDigit (b.toNat % 16)]) =
        some bytes := by
  induction bytes with
  | nil => rfl
  | cons b bytes ih =>
      have hb : b.toNat < 256 := b.toNat_lt
      have hhi := hexNibble_hexDigit (b.toNat / 16) (by omega)
      have hlo := hexNibble_hexDigit (b.toNat % 16) (by omega)
      have hbyte : 16 * (b.toNat / 16) + b.toNat % 16 = b.toNat := by omega
      simp only [List.flatMap_cons, List.cons_append, List.nil_append, List.length_cons,
        parseHexBytes, hhi, hlo, ih, Option.bind_eq_bind, Option.bind_some, Option.pure_def,
        hbyte, UInt8.ofNat_toNat]

theorem parseSha256Hex_toHex (dig : Digest) :
    parseSha256Hex (sha256ToHex dig) = some dig.bytes := by
  rw [parseSha256Hex, sha256ToHex, ← dig.length_eq]
  exact parseHexBytes_digits dig.bytes

/-- The comparison of the loader compares digests. -/
theorem sha256HexEq_toHex (dig : Digest) (hex : Text) :
    sha256HexEq (sha256ToHex dig) hex = 0 ↔ parseSha256Hex hex = some dig.bytes := by
  rw [sha256HexEq, parseSha256Hex_toHex]
  cases hparse : parseSha256Hex hex with
  | none => simp
  | some bytes =>
      by_cases heq : dig.bytes = bytes
      · simp [heq]
      · simp [heq, Ne.symm heq]

theorem parseHexBytes_isSome {n : Nat} : ∀ {hex : Text}, hex.length = 2 * n →
    (hex.all fun c => (hexNibble c).isSome) = true → (parseHexBytes n hex).isSome = true := by
  induction n with
  | zero =>
      intro hex hlen _
      rw [List.length_eq_zero_iff.mp hlen]
      rfl
  | succ n ih =>
      intro hex hlen hall
      match hex with
      | [] => simp at hlen
      | [a] => simp only [List.length_singleton] at hlen; omega
      | a :: b :: hex =>
          simp only [List.all_cons, Bool.and_eq_true] at hall
          obtain ⟨hi, hhi⟩ := Option.isSome_iff_exists.mp hall.1
          obtain ⟨lo, hlo⟩ := Option.isSome_iff_exists.mp hall.2.1
          have hlen' : hex.length = 2 * n := by
            simp only [List.length_cons] at hlen
            omega
          obtain ⟨bytes, hbytes⟩ := Option.isSome_iff_exists.mp (ih hlen' hall.2.2)
          simp [parseHexBytes, hhi, hlo, hbytes]

/-- What looks like a digest is one. -/
theorem digest_of_isHex64 {hex : Text} (h : isHex64 hex = true) :
    ∃ dig : Digest, parseSha256Hex hex = some dig.bytes := by
  simp only [isHex64, Bool.and_eq_true, beq_iff_eq] at h
  obtain ⟨bytes, hbytes⟩ :=
    Option.isSome_iff_exists.mp (parseHexBytes_isSome (n := sha256Len) h.1 h.2)
  exact ⟨⟨bytes, parseHexBytes_length hbytes⟩, hbytes⟩

/-! ## A load -/

theorem Holding.leftInit {handle : Nat} {G : Prop} {s : Load}
    (h : s.out = {} ∧ openHandles s.acts = [.lib handle]) (hG : G) (fini : Nat)
    (reason : String) (path : Text) :
    Left G (undone [.fini fini, .closed (.lib handle)] reason path s) := by
  refine ⟨h.1, ?_, fun _ => hG⟩
  show (openHandles s.acts).erase (.lib handle) = []
  rw [h.2, List.erase_cons_head]

theorem activate_goes {h : Host} {G : Prop} {canon gotHex : Text} {handle : Nat}
    (hlen : canon.length < pathMax)
    (hG : ∀ e, entriesOf h handle = some e → (h.query e.query).2.abiMajor = abiMajor →
      (h.query e.query).2.abiMinor ≤ abiMinor → G) :
    Goes (Holding [.lib handle]) (activate h canon gotHex handle) (fun _ _ => G) (Left G) := by
  unfold activate
  apply Goes.bind (Goes.ofOption (by decide) fun s hs => hs.leftClosing _ _)
  intro e
  apply Goes.bind (Goes.act
    (Q := fun _ s => Holding [.lib handle] s ∧ entriesOf h handle = some e)
    fun s hs => ⟨hs.1.query _, hs.2⟩)
  intro _
  apply Goes.bind (Goes.ofCheck (by decide) fun s hs => hs.1.leftClosing _ _)
  intro _
  apply Goes.bind (Goes.ofCheck (by decide) fun s hs => hs.1.1.leftClosing _ _)
  intro _
  apply Goes.bind (Goes.ofCheck (by decide) fun s hs => hs.1.1.1.leftClosing _ _)
  intro _
  -- from here on the plugin is initialised
  apply Goes.bind (Goes.act
    (Q := fun _ s => (s.out = {} ∧ openHandles s.acts = [.lib handle]) ∧ G)
    fun s hs => ⟨⟨hs.1.1.1.1.out, hs.1.1.1.1.handles⟩, hG e hs.1.1.1.2 hs.1.2 hs.2⟩)
  intro _
  apply Goes.bind (Goes.ofCheck (by decide)
    fun s hs => Holding.leftInit hs.1 hs.2 _ _ _)
  intro _
  rw [if_neg (Nat.not_le.mpr hlen)]
  exact Goes.modify fun s hs => hs.1.2

/-- **What a load has passed, and what it leaves.**  Where the entry of the list comes
from is left open. -/
theorem load_goes (h : Host) (name : Text) (allowPath : Option Text) :
    Goes (fun s => s.acts = []) (pluginLoad h name allowPath)
      (fun _ _ => ∃ v, Passed (readHash h) h name allowPath v)
      (Left (∃ v, Passed (readHash h) h name allowPath v)) := by
  unfold pluginLoad
  apply Goes.bind (Goes.modify (Q := fun _ => Holding []) fun s hs => ?_)
  · intro _
    apply Goes.bind (Goes.ofOption (by decide) fun s hs => hs.left _ _)
    intro canon
    apply Goes.bind (Goes.ofCheck (by decide) fun s hs => hs.1.left _ _)
    intro _
    apply Goes.bind (Goes.ofOption (by decide) fun s hs => hs.1.1.left _ _)
    intro list s hs
    obtain ⟨⟨⟨hs, hresolve⟩, hwritable⟩, hlist⟩ := hs
    refine Goes.bind (allowParseFile_goes list) (fun allow => ?_) s hs
    apply Goes.bind (Goes.ofOption (by decide) fun s hs => hs.1.left _ _)
    intro entries
    apply Goes.bind (Goes.ofOption (by decide) fun s hs => hs.1.1.left _ _)
    intro hex
    rintro s ⟨⟨⟨hs, hlisted⟩, rfl⟩, hfind⟩
    obtain ⟨hne, content, hmode, hbytes, hloop⟩ := hlisted entries rfl
    refine Goes.bind (hashFile_goes canon) (fun dig => ?_) s hs
    rintro s ⟨hs, fd, hopen, hdig, hsize⟩
    refine Goes.bind (Goes.ofCheck (by decide) fun s hs => hs.left _ _) (fun _ => ?_) s hs
    rintro s ⟨hs, hhash⟩
    refine Goes.bind (Goes.ofOption (by decide) fun s hs => hs.left _ _) (fun handle => ?_) s hs
    apply Goes.bind (Goes.act
      (Q := fun _ s => Holding [.lib handle] s ∧ h.dlopen canon = some handle)
      fun s hs => ⟨hs.1.opened _, hs.2⟩)
    rintro _ s ⟨hs, hdlopen⟩
    have hok := pathWritableOk_spec hwritable
    have hlen : canon.length < pathMax := by
      unfold pathWritableOk at hwritable
      split at hwritable
      · contradiction
      · split at hwritable
        · contradiction
        · simp only [Bool.and_eq_true, decide_eq_true_eq] at hwritable
          exact hwritable.1.2
    refine activate_goes hlen (fun e he hmajor hminor => ?_) s hs
    exact ⟨⟨canon, list, content, hex, fd, dig, handle, e⟩,
      { resolved := hresolve
        regular := hok.1
        above := hok.2
        list_path := hlist
        list_ne := hne
        list_mode := hmode
        list_bytes := hbytes
        listed := by
          show (allowLoop h [] _).bind _ = some hex
          rw [hloop]
          exact hfind
        file := hopen
        size := hsize
        hashed := hdig
        digest := (sha256HexEq_toHex dig hex).mp hhash
        opened := hdlopen
        symbols := he
        major := hmajor
        minor := hminor }⟩
  · refine ⟨rfl, ?_, ?_⟩
    · show openHandles s.acts = []
      rw [hs]
      rfl
    · rintro ⟨fn, hfn⟩
      have hfn' : Act.init fn ∈ s.acts := hfn
      rw [hs] at hfn'
      contradiction

/-! ## The condition on the list -/

/-- What the loader reads in a piece. -/
def pieceEntry (piece : Text) : Option (Text × Text) := lineEntry (cstr piece)

/-- The first entry for `canon` among the pieces, as far as they are read. -/
theorem allowLoop_find {h : Host} {canon : Text} : ∀ (pieces : List Text)
    (entries out : List AllowEntry), allowLoop h entries pieces = some out →
    allowFind out canon = (allowFind entries canon).or
      (((pieces.filterMap pieceEntry).find?
        fun e => h.realpath e.1 == some canon).map Prod.snd) := by
  intro pieces
  induction pieces with
  | nil =>
      intro entries out hloop
      rw [← Option.some.inj hloop]
      simp
  | cons t pieces ih =>
      intro entries out hloop
      rw [allowLoop] at hloop
      have hpiece : lineEntry (cstr t) = pieceEntry t := rfl
      rw [hpiece] at hloop
      cases ht : pieceEntry t with
      | none =>
          rw [ht] at hloop
          rw [ih entries out hloop, List.filterMap_cons_none ht]
      | some e =>
          obtain ⟨tok, hash⟩ := e
          simp only [ht] at hloop
          split at hloop
          · contradiction
          · rw [List.filterMap_cons_some ht]
            cases hq : h.realpath tok with
            | none =>
                simp only [hq] at hloop
                rw [ih entries out hloop, List.find?_cons_of_neg]
                simp [hq]
            | some q =>
                simp only [hq] at hloop
                rw [ih _ out hloop, allowFind, List.find?_append, Option.map_or, Option.or_assoc]
                congr 1
                by_cases hcanon : q = canon
                · simp [hq, hcanon]
                · simp [hq, hcanon]

/-- What the loader finds, in the terms of `namedHash`. -/
theorem readHash_eq {h : Host} {content canon hex : Text}
    (hread : readHash h content canon = some hex) :
    (((fgetsPieces lineRoom content).filterMap pieceEntry).find?
      fun e => h.realpath e.1 == some canon).map Prod.snd = some hex := by
  obtain ⟨entries, hloop, hfind⟩ := Option.bind_eq_some_iff.mp hread
  rw [← hfind, allowLoop_find _ _ _ hloop]
  rfl

/-- What the loader finds is a digest. -/
theorem readHash_isHex64 {h : Host} {content canon hex : Text}
    (hread : readHash h content canon = some hex) : isHex64 hex = true := by
  obtain ⟨e, hfind, rfl⟩ := Option.map_eq_some_iff.mp (readHash_eq hread)
  obtain ⟨t, -, hentry⟩ := List.mem_filterMap.mp (List.mem_of_find?_eq_some hfind)
  simp only [pieceEntry, lineEntry] at hentry
  split_ifs at hentry with _ _ _ hhex
  rw [← Option.some.inj hentry]
  exact hhex

/-- The pieces of the list name the plugin first with the digest with which its lines
do. -/
def ReadsAsLines (h : Host) (name : Text) (allowPath : Option Text) : Prop :=
  ∀ canon list content hex, pluginResolve h name = some canon →
    listPath h allowPath = some list → list ≠ [] → ¬ Above list canon →
    h.fopen list = some (content, false) → readHash h content canon = some hex →
    ∃ line, namedHash h content canon = some line ∧ parseSha256Hex line = parseSha256Hex hex

/-- A newline ends a line. -/
theorem lineEntry_newline {l : Text} (hnl : '\n' ∉ l) : lineEntry (l ++ ['\n']) = lineEntry l := by
  have hdrop : (l ++ ['\n']).dropWhile isBlank = l.dropWhile isBlank ++ ['\n'] := by
    rw [List.dropWhile_append]
    split
    next hempty =>
      rw [List.isEmpty_iff.mp hempty]
      rfl
    · rfl
  have hmem : '\n' ∉ l.dropWhile isBlank := fun h => hnl ((List.dropWhile_sublist _).subset h)
  have htake : (l.dropWhile isBlank ++ ['\n']).takeWhile (· != '\n') =
      (l.dropWhile isBlank).takeWhile (· != '\n') := by
    have hall : ∀ c ∈ l.dropWhile isBlank, (c != '\n') = true := by
      intro c hc
      simp only [bne_iff_ne, ne_eq]
      rintro rfl
      exact hmem hc
    rw [List.takeWhile_append_of_pos hall, List.takeWhile_eq_self_iff.mpr hall]
    simp
  rw [lineEntry, lineEntry, hdrop]
  cases hp : l.dropWhile isBlank with
  | nil => rfl
  | cons c p =>
      rw [hp] at htake
      simp only [List.cons_append, List.head?_cons] at htake ⊢
      rw [htake]

/-- **A list without NUL bytes whose lines fit the buffer is read line by line.** -/
theorem readsAsLines_of_short_lines {h : Host} {name : Text} {allowPath : Option Text}
    (hlists : ∀ list content, listPath h allowPath = some list →
      h.fopen list = some (content, false) →
      nul ∉ content ∧ ∀ line ∈ lines content, line.length < lineRoom) :
    ReadsAsLines h name allowPath := by
  intro canon list content hex _ hlist _ _ hopen hread
  obtain ⟨hnul, hshort⟩ := hlists list content hlist hopen
  refine ⟨hex, ?_, rfl⟩
  rw [← readHash_eq hread, namedHash, filterMap_fgetsPieces_short hshort]
  · intro l hl
    have hnulLine : nul ∉ l := fun hmem => hnul (subset_of_mem_lines hl hmem)
    have hnlLine : '\n' ∉ l := not_mem_of_mem_lines hl
    have hnulPiece : nul ∉ l ++ ['\n'] := by
      intro hmem
      rcases List.mem_append.mp hmem with hmem | hmem
      · exact hnulLine hmem
      · exact absurd (List.mem_singleton.mp hmem) (by decide)
    rw [pieceEntry, pieceEntry, cstr_eq_self hnulLine, cstr_eq_self hnulPiece,
      lineEntry_newline hnlLine]
    exact ⟨rfl, rfl⟩
  · rfl

/-! ## The condition is exact -/

/-- The system has the same names, the same variables and the same lists. -/
structure SameLists (h h' : Host) : Prop where
  env : h'.env = h.env
  realpath : h'.realpath = h.realpath
  fopen : h'.fopen = h.fopen

/-- A machine where nothing but the list can refuse a plugin: the list is a trusted
file, every plugin is a closed file with the digest `dig` below closed directories, and
has the version of the host. -/
def acceptingHost (h : Host) (list : Text) (dig : Digest) : Host :=
  { h with
    lstat := fun _ => some ⟨0o100644, 0⟩
    stat := fun path => some (if path = list then ⟨0o100644, 0⟩ else ⟨0o040755, 0⟩)
    openFile := fun _ => some 3
    fstat := fun _ => some ⟨0o100644, 0⟩
    sha256 := fun _ => some dig
    dlopen := fun _ => some 1
    dlsym := fun _ _ => some 0
    dlsymAbi := fun _ => none
    query := fun _ => (0, ⟨1, 0, none, none⟩)
    init := fun _ => 0 }

theorem sameLists_accepting (h : Host) (list : Text) (dig : Digest) :
    SameLists h (acceptingHost h list dig) := ⟨rfl, rfl, rfl⟩

theorem pluginResolve_realpath {h : Host} {name canon : Text}
    (hresolve : pluginResolve h name = some canon) : ∃ p, h.realpath p = some canon := by
  unfold pluginResolve at hresolve
  split at hresolve
  · contradiction
  · obtain ⟨dirs, -, hfind⟩ := Option.bind_eq_some_iff.mp hresolve
    obtain ⟨dir, -, hdir⟩ := List.exists_of_findSome?_eq_some hfind
    split at hdir
    · contradiction
    · exact ⟨_, hdir⟩

theorem addSearchDir_congr {h h' : Host} (hreal : h'.realpath = h.realpath) (dirs : List Text) :
    addSearchDir h' dirs = addSearchDir h dirs := by
  funext raw
  simp only [addSearchDir, hreal]

theorem allowLoop_congr {h h' : Host} (hreal : h'.realpath = h.realpath) (pieces : List Text) :
    ∀ entries, allowLoop h' entries pieces = allowLoop h entries pieces := by
  induction pieces with
  | nil =>
      intro entries
      rfl
  | cons t pieces ih =>
      intro entries
      simp only [allowLoop, hreal, ih]

theorem SameLists.resolve {h h' : Host} (hsame : SameLists h h') (name : Text) :
    pluginResolve h' name = pluginResolve h name := by
  simp only [pluginResolve, searchDirs, funext (addSearchDir_congr hsame.realpath), absoluteVar,
    hsame.env, hsame.realpath]

theorem SameLists.listPath {h h' : Host} (hsame : SameLists h h') (allowPath : Option Text) :
    listPath h' allowPath = listPath h allowPath := by
  simp only [Plugins.listPath, defaultAllowPath, absoluteVar, hsame.env]

theorem SameLists.readHash {h h' : Host} (hsame : SameLists h h') (content canon : Text) :
    readHash h' content canon = readHash h content canon := by
  rw [Plugins.readHash, Plugins.readHash, allowLoop_congr hsame.realpath]

theorem SameLists.namedHash {h h' : Host} (hsame : SameLists h h') (content canon : Text) :
    namedHash h' content canon = namedHash h content canon := by
  rw [Plugins.namedHash, Plugins.namedHash, hsame.realpath]

/-- On such a machine the list decides. -/
theorem accepting_loads {h : Host} {name : Text} {allowPath : Option Text}
    {canon list content hex : Text} {dig : Digest} (out : Plugin)
    (hresolve : pluginResolve h name = some canon) (hlist : listPath h allowPath = some list)
    (hne : list ≠ []) (habove : ¬ Above list canon) (hopen : h.fopen list = some (content, false))
    (hread : readHash h content canon = some hex) (hdig : parseSha256Hex hex = some dig.bytes) :
    (pluginLoad (acceptingHost h list dig) name allowPath ⟨out, []⟩).value = some () := by
  obtain ⟨p, hp⟩ := pluginResolve_realpath hresolve
  have hhead := h.realpath_abs p canon hp
  have hlen := h.realpath_lt p canon hp
  obtain ⟨entries, hloop, hfind⟩ := Option.bind_eq_some_iff.mp hread
  have hdirs : ∀ dir, Above dir canon → dirOk (acceptingHost h list dig) dir = true := by
    intro dir hdir
    have hdirNe : dir ≠ list := fun heq => habove (heq ▸ hdir)
    simp [dirOk, acceptingHost, hdirNe, Stat.isDir, Stat.otherWritable]
  have hwritable : pathWritableOk (acceptingHost h list dig) canon = true := by
    have hmem : '/' ∈ canon := List.mem_of_mem_head? hhead
    have hwalk := walkDirs_ok canon.length canon hdirs (Nat.le_refl _) hmem hhead
    have hlstat : (acceptingHost h list dig).lstat canon = some ⟨0o100644, 0⟩ := rfl
    simp [pathWritableOk, hhead, hlstat, hwalk, hlen, Stat.isReg, Stat.otherWritable]
  have hresolve' : pluginResolve (acceptingHost h list dig) name = some canon := hresolve
  have hlist' : (allowPath.orElse fun _ => defaultAllowPath (acceptingHost h list dig)) =
      some list := hlist
  have hparse : allowParseFile (acceptingHost h list dig) list = (do
      act (.opened .stream)
      act (.closed .stream)
      pure (some entries)) := by
    have hstat : (acceptingHost h list dig).stat list = some ⟨0o100644, 0⟩ := by
      simp [acceptingHost]
    have hfile : (acceptingHost h list dig).fopen list = some (content, false) := hopen
    have hsame : allowLoop (acceptingHost h list dig) [] (fgetsPieces lineRoom content) =
        some entries := by
      rw [allowLoop_congr (sameLists_accepting h list dig).realpath]
      exact hloop
    simp only [allowParseFile, if_neg hne, hstat, hfile, hsame]
    rfl
  have heq : sha256HexEq (sha256ToHex dig) hex = 0 := (sha256HexEq_toHex dig hex).mpr hdig
  have hshort : ¬ canon.length ≥ pathMax := Nat.not_le.mpr hlen
  have hfile : (acceptingHost h list dig).openFile canon = some 3 := rfl
  have hstat : ((acceptingHost h list dig).fstat 3).filter Stat.isReg = some ⟨0o100644, 0⟩ := rfl
  have hhash : (acceptingHost h list dig).sha256 3 = some dig := rfl
  have hdlopen : (acceptingHost h list dig).dlopen canon = some 1 := rfl
  have hsym : entriesOf (acceptingHost h list dig) 1 = some ⟨0, 0, 0, 0⟩ := rfl
  have hquery : (acceptingHost h list dig).query 0 = (0, ⟨1, 0, none, none⟩) := rfl
  have hinit : (acceptingHost h list dig).init 0 = 0 := rfl
  generalize acceptingHost h list dig = g at *
  simp only [pluginLoad, hresolve', hlist']
  simp [bind_apply, Prog.bind, orRefuse, require, hwritable, hparse, hfind, hashFile, hfile, hstat,
    hhash, heq, hdlopen, activate, hsym, hquery, hinit, hshort, Stat.otherWritable, abiMajor, act, Lib.Run.modify, pure_apply, Outcome.value]

/-- **The policy and its exact condition.**  For every search path, every allow-list
and every plugin name: every load, whatever else the system answers, obeys the policy
if and only if the list is read as its lines. -/
theorem policy_iff (h : Host) (name : Text) (allowPath : Option Text) :
    (∀ h', SameLists h h' → ∀ out,
      Obeys h' name allowPath (pluginLoad h' name allowPath ⟨out, []⟩)) ↔
      ReadsAsLines h name allowPath := by
  constructor
  · intro hobeys canon list content hex hresolve hlist hne habove hopen hread
    obtain ⟨dig, hdig⟩ := digest_of_isHex64 (readHash_isHex64 hread)
    have hload := accepting_loads {} hresolve hlist hne habove hopen hread hdig
    obtain ⟨v, hv⟩ :=
      (hobeys _ (sameLists_accepting h list dig) {}).authorised (Or.inl hload)
    have hcanon : v.canon = canon := Option.some.inj (hv.resolved.symm.trans hresolve)
    have hvlist : v.list = list := Option.some.inj (hv.list_path.symm.trans hlist)
    have hbytes : h.fopen v.list = some (v.content, false) := hv.list_bytes
    rw [hvlist, hopen] at hbytes
    have hcontent : content = v.content := (Prod.mk.inj (Option.some.inj hbytes)).1
    have hvdig : dig = v.dig := Option.some.inj hv.hashed
    refine ⟨v.hex, ?_, ?_⟩
    · rw [hcontent, ← hcanon]
      exact hv.listed
    · rw [hv.digest, hdig, hvdig]
  · intro hreads h' hsame out
    have hgoes := load_goes h' name allowPath ⟨out, []⟩ rfl
    have hauth : (∃ v, Passed (readHash h') h' name allowPath v) → Authorised h' name allowPath := by
      rintro ⟨v, hv⟩
      have hread := hv.listed
      rw [hsame.readHash] at hread
      have hresolve := hv.resolved
      rw [hsame.resolve] at hresolve
      have hlist := hv.list_path
      rw [hsame.listPath] at hlist
      have hbytes := hv.list_bytes
      rw [hsame.fopen] at hbytes
      have habove : ¬ Above v.list v.canon := by
        intro habove
        obtain ⟨st, hst, hreg, -⟩ := hv.list_mode
        obtain ⟨st', hst', hdir, -⟩ := hv.above _ habove
        obtain rfl : st = st' := Option.some.inj (hst.symm.trans hst')
        simp only [Stat.isReg, Stat.isDir, beq_iff_eq] at hreg hdir
        omega
      obtain ⟨line, hline, hparse⟩ :=
        hreads v.canon v.list v.content v.hex hresolve hlist hv.list_ne habove hbytes hread
      rw [← hsame.namedHash] at hline
      exact ⟨{ v with hex := line },
        { hv with listed := hline, digest := hparse.trans hv.digest }⟩
    constructor
    · intro hdone
      apply hauth
      cases hrun : pluginLoad h' name allowPath ⟨out, []⟩ with
      | ok t a =>
          rw [hrun] at hgoes
          exact hgoes
      | exit t code =>
          rw [hrun] at hgoes hdone
          rcases hdone with hdone | hdone
          · contradiction
          · exact hgoes.2.authorised hdone
      | cut t =>
          rw [hrun] at hgoes
          exact hgoes.elim
    · intro hnone
      cases hrun : pluginLoad h' name allowPath ⟨out, []⟩ with
      | ok t a =>
          rw [hrun] at hnone
          contradiction
      | exit t code =>
          rw [hrun] at hgoes
          exact ⟨t, code, rfl, hgoes.1, hgoes.2.out, hgoes.2.handles⟩
      | cut t =>
          rw [hrun] at hgoes
          exact hgoes.elim

/-! ## Text inside a comment -/

/-- Thirty-two zero bytes. -/
def zeroDigest : Digest := ⟨List.replicate 32 0, by decide⟩

/-- The tail of a comment that reads as an entry. -/
def entryText : Text := "/d/p.so ".toList ++ List.replicate 64 '0'

/-- A list of one comment. -/
def commentList (pad : Text) : Text := '#' :: pad ++ (entryText ++ ['\n'])

/-- The plugin `/d/p.so` on the search path, and a list of one comment at `/l`. -/
def commentHost (pad : Text) : Host where
  env name := if name = "PETRUSH_PLUGIN_PATH".toList then some "/d".toList else none
  realpath p := if p = "/d".toList ∨ p = "/d/p.so".toList then some p else none
  realpath_abs := by
    intro p q h
    split_ifs at h with hp
    obtain rfl := Option.some.inj h
    rcases hp with rfl | rfl
    · rfl
    · rfl
  realpath_lt := by
    intro p q h
    split_ifs at h with hp
    obtain rfl := Option.some.inj h
    rcases hp with rfl | rfl
    · decide
    · decide
  lstat _ := none
  stat _ := none
  fopen p := if p = "/l".toList then some (commentList pad, false) else none
  openFile _ := none
  fstat _ := none
  sha256 _ := none
  dlopen _ := none
  dlsym _ _ := none
  dlsymAbi _ := none
  query _ := (-1, ⟨0, 0, none, none⟩)
  init _ := -1

theorem lineEntry_comment (t : Text) : lineEntry ('#' :: t) = none := by
  simp [lineEntry, isBlank]

theorem commentList_pieces {pad : Text} (hnl : '\n' ∉ pad) (hlen : pad.length + 1 = lineRoom) :
    fgetsPieces lineRoom (commentList pad) = ['#' :: pad, entryText ++ ['\n']] := by
  have hroom : 0 < lineRoom := by
    rw [← hlen]
    exact Nat.succ_pos _
  have hlast : entryText.length < lineRoom := by
    have hlength : entryText.length = 72 := rfl
    rw [hlength]
    show 72 < 4096 + 64 + 64 - 1
    omega
  have hline : '\n' ∉ '#' :: pad := by simp [hnl]
  have hfull : ('#' :: pad).length = lineRoom := hlen
  have hcut := fgetsPieces_full (entryText ++ ['\n']) hroom hline hfull
  have hrest := fgetsPieces_line (t := entryText) [] (by decide) hlast
  rw [commentList, hcut, hrest, fgetsPieces_nil]

theorem commentList_lines {pad : Text} (hnl : '\n' ∉ pad) :
    lines (commentList pad) = ['#' :: pad ++ entryText, []] := by
  have hline : '\n' ∉ '#' :: pad ++ entryText := by
    intro hmem
    rcases List.mem_append.mp hmem with hmem | hmem
    · rcases List.mem_cons.mp hmem with heq | hmem
      · exact absurd heq (by decide)
      · exact hnl hmem
    · exact absurd hmem (by decide)
  rw [commentList, ← List.append_assoc, lines_cons_line [] hline]
  rfl

/-- **Text inside a comment authorises a plugin.**  The list has no line but a comment
and the empty line after it; the plugin named in the comment's tail is initialised,
against the policy. -/
theorem commentLine_loads :
    lines (commentList (List.replicate 4222 'x')) =
      ['#' :: List.replicate 4222 'x' ++ entryText, []] ∧
    (pluginLoad (acceptingHost (commentHost (List.replicate 4222 'x')) "/l".toList zeroDigest)
      "p".toList (some "/l".toList) ⟨{}, []⟩).value = some () ∧
    ¬ Obeys (acceptingHost (commentHost (List.replicate 4222 'x')) "/l".toList zeroDigest)
      "p".toList (some "/l".toList)
      (pluginLoad (acceptingHost (commentHost (List.replicate 4222 'x')) "/l".toList zeroDigest)
        "p".toList (some "/l".toList) ⟨{}, []⟩) := by
  have hnl : '\n' ∉ List.replicate 4222 'x' :=
    fun h => absurd (List.eq_of_mem_replicate h) (by decide)
  have hlen : (List.replicate 4222 'x').length + 1 = lineRoom := by
    rw [List.length_replicate]
    rfl
  generalize List.replicate 4222 'x' = pad at hnl hlen ⊢
  have hlines := commentList_lines hnl
  have hresolve : pluginResolve (commentHost pad) "p".toList = some "/d/p.so".toList := rfl
  have hopen : (commentHost pad).fopen "/l".toList = some (commentList pad, false) := rfl
  have hhash : readHash (commentHost pad) (commentList pad) "/d/p.so".toList =
      some (List.replicate 64 '0') := by
    have hfirst : lineEntry (cstr ('#' :: pad)) = none := lineEntry_comment _
    have hsecond : lineEntry (cstr (entryText ++ ['\n'])) =
        some ("/d/p.so".toList, List.replicate 64 '0') := by decide
    rw [readHash, commentList_pieces hnl hlen]
    simp only [allowLoop, hfirst, hsecond]
    rfl
  have habove : ¬ Above "/l".toList "/d/p.so".toList := by
    rintro (heq | ⟨c, d, rest, heq, heq'⟩)
    · exact absurd heq (by decide)
    · injection heq'.symm with _ htail
      injection htail with hl _
      exact absurd hl (by decide)
  have hlist : listPath (commentHost pad) (some "/l".toList) = some "/l".toList := rfl
  have hdig : parseSha256Hex (List.replicate 64 '0') = some zeroDigest.bytes := by decide
  have hload := accepting_loads {} hresolve hlist (by decide) habove hopen hhash hdig
  refine ⟨hlines, hload, fun hobeys => ?_⟩
  obtain ⟨v, hv⟩ := hobeys.authorised (Or.inl hload)
  have hpath : "/l".toList = v.list := Option.some.inj hv.list_path
  have hbytes : (commentHost pad).fopen v.list = some (v.content, false) := hv.list_bytes
  rw [← hpath, hopen] at hbytes
  have hcontent : commentList pad = v.content := (Prod.mk.inj (Option.some.inj hbytes)).1
  have hnamed := hv.listed
  rw [namedHash, ← hcontent, hlines, List.cons_append, List.filterMap_cons,
    lineEntry_comment] at hnamed
  contradiction

end Petrush.Verified.Plugins
