import Petrush.Mid.Netcom
import Petrush.Verified.Inventory

/-!
# Reports in a buffer

`wai` and `netcom` append to a buffer and give up with `-ENOSPC` when a piece does not fit.
What they show does not depend on the size of the buffer: there is one report, and a scan
gives all of it, or fails with a part of it that leaves room for the NUL.

The report of `netcom` has a section for the interfaces with `wireless` or `phy80211`, one for
the other ones of type `ARPHRD_ETHER`, and one for Bluetooth devices.

## Main results

* `waiScan_whole`, `netcomScan_whole` — all or `-ENOSPC`.
* `ether_once` — an interface is in one of the two sections.
-/

namespace Petrush.Verified.Reports

open Petrush.Lib.CText
open Petrush.Lib.Run
open Petrush.Lib.Stdio
open Petrush.Lib.Stdlib
open Petrush.Mid.Netcom
open Petrush.Mid.Wai
open Petrush.Verified.Inventory (Plain Room WellPlaced Writes below endOf joinPath_plain
  boardRel_plain
  petrushWaiScan_eq sections_wellPlaced showSection)

/-! ## Programs that print -/

/-- The program appends `t`; when there is no room for it and the NUL, it appends a part of it
and fails. -/
structure Prints (c : Prog Buffer Unit) (t : Text) : Prop where
  writes : Writes c t
  fails : ∀ s, Room s → s.cap ≤ s.out.length + t.length → ∃ part, part <+: t ∧
    s.out.length + part.length < s.cap ∧ c s = .exit { s with out := s.out ++ part } enospc

/-- The program prints something, whatever the buffer. -/
def Printable (c : Prog Buffer Unit) : Prop := ∃ t, Prints c t

section Prints

variable {α : Type} {c d : Prog Buffer Unit} {t u : Text}

theorem Prints.nothing : Prints (pure ()) [] :=
  ⟨Writes.nothing, fun _ hroom hfull => absurd hroom (Nat.not_lt.mpr hfull)⟩

theorem Prints.str (t : Text) : Prints (appendStr t) (cstr t) := by
  refine ⟨Writes.str t, fun s hroom hfull => ⟨[], List.nil_prefix, hroom, ?_⟩⟩
  have hcap : ¬ s.cap = 0 := Nat.ne_of_gt (Nat.lt_of_le_of_lt (Nat.zero_le _) hroom)
  have hlong : (cstr t).length > s.cap - 1 - s.out.length := by
    unfold Room at hroom
    omega
  rw [appendStr, appendBytes, if_neg hcap, if_neg (Nat.not_le.mpr hroom), if_pos hlong,
    List.append_nil]

theorem Prints.then (hc : Prints c t) (hd : Prints d u) :
    Prints (c >>= fun _ => d) (t ++ u) := by
  refine ⟨hc.writes.then hd.writes, fun s hroom hfull => ?_⟩
  rw [List.length_append] at hfull
  by_cases hfits : s.out.length + t.length < s.cap
  · have hlonger : (s.out ++ t).length = s.out.length + t.length := List.length_append
    have hroom' : Room { s with out := s.out ++ t } := hlonger.trans_lt hfits
    have hfull' : s.cap ≤ (s.out ++ t).length + u.length := by omega
    obtain ⟨part, hpart, hlen, hrun⟩ := hd.fails _ hroom' hfull'
    refine ⟨t ++ part, (List.prefix_append_right_inj t).mpr hpart, ?_, ?_⟩
    · rw [List.length_append, ← Nat.add_assoc, ← hlonger]
      exact hlen
    · rw [bind_run (hc.writes s hfits), hrun, List.append_assoc]
  · obtain ⟨part, hpart, hlen, hrun⟩ := hc.fails s hroom (Nat.not_lt.mp hfits)
    refine ⟨part, hpart.trans (List.prefix_append _ _), hlen, ?_⟩
    rw [bind_apply, Prog.bind, hrun]

/-- Some of a list print nothing. -/
theorem Prints.filter {f : α → Prog Buffer Unit} {g : α → Text} (keep : α → Bool)
    (h : ∀ x, Prints (f x) (if keep x then g x else [])) (xs : List α) :
    Prints (forEach f xs) ((xs.filter keep).flatMap g) := by
  induction xs with
  | nil => exact Prints.nothing
  | cons x xs ih =>
      have hboth := (h x).then ih
      by_cases hkeep : keep x = true
      · rw [List.filter_cons_of_pos hkeep]
        rwa [if_pos hkeep] at hboth
      · rw [List.filter_cons_of_neg hkeep]
        rwa [if_neg hkeep] at hboth

theorem Prints.ite {p : Prop} [Decidable p] (hc : p → Prints c t) (hd : ¬ p → Prints d u) :
    Prints (if p then c else d) (if p then t else u) := by
  split
  next h => exact hc h
  next h => exact hd h

theorem Printable.then (hc : Printable c) (hd : Printable d) : Printable (c >>= fun _ => d) := by
  obtain ⟨t, ht⟩ := hc
  obtain ⟨u, hu⟩ := hd
  exact ⟨t ++ u, ht.then hu⟩

theorem Printable.nothing : Printable (pure ()) := ⟨[], Prints.nothing⟩

theorem Printable.str (t : Text) : Printable (appendStr t) := ⟨cstr t, Prints.str t⟩

theorem Printable.each {f : α → Prog Buffer Unit} {xs : List α} (h : ∀ x ∈ xs, Printable (f x)) :
    Printable (forEach f xs) := by
  induction xs with
  | nil => exact Printable.nothing
  | cons x xs ih =>
      exact (h x List.mem_cons_self).then (ih fun y hy => h y (List.mem_cons_of_mem x hy))

theorem Printable.ite {p : Prop} [Decidable p] (hc : Printable c) (hd : Printable d) :
    Printable (if p then c else d) := by
  split
  · exact hc
  · exact hd

end Prints

/-! ## Scans -/

/-- The scan gives the whole report, or fails with a part of it. -/
def Whole (report : Text) (scan : Nat → Int × Text) : Prop :=
  ∀ cap, cap ≤ 2 ^ 31 →
    (report.length < cap → scan cap = ((report.length : Int), report)) ∧
    (cap ≤ report.length → ∃ part, part <+: report ∧ part.length ≤ cap - 1 ∧
      scan cap = (enospc, part))

/-- A program that prints, as a scan. -/
theorem Prints.whole {c : Prog Buffer Unit} {report : Text} {scan : Nat → Int × Text}
    (h : Prints c report)
    (hscan : ∀ cap, scan cap = if cap = 0 then (enospc, []) else endOf (c ⟨cap, []⟩)) :
    Whole report scan := by
  intro cap hcap
  rw [hscan]
  refine ⟨fun hfits => ?_, fun hfull => ?_⟩
  · have hrun := h.writes ⟨cap, []⟩ (by rw [List.length_nil, Nat.zero_add]; exact hfits)
    have hvalue : (BitVec.ofNat 32 report.length).toInt = report.length := by
      rw [BitVec.toInt_ofNat']
      exact Int.bmod_eq_of_le_mul_two (by omega) (by omega)
    rw [if_neg (by omega), hrun, List.nil_append, endOf, hvalue]
  · split
    next => exact ⟨[], List.nil_prefix, Nat.zero_le _, rfl⟩
    next hne =>
      obtain ⟨part, hpart, hlen, hrun⟩ := h.fails ⟨cap, []⟩ (Nat.pos_of_ne_zero hne)
        (by rw [List.length_nil, Nat.zero_add]; exact hfull)
      rw [List.length_nil, Nat.zero_add] at hlen
      refine ⟨part, hpart, Nat.le_sub_one_of_lt hlen, ?_⟩
      rw [hrun, List.nil_append, endOf]

/-! ## `wai` -/

section Wai

variable (T : Tree)

theorem printable_sidecar (dirRel : String) (ent : Name) (leaf : String) (room : Nat)
    (label : String) : Printable (sidecar T dirRel ent leaf room label) := by
  unfold sidecar
  split
  · exact Printable.nothing
  · exact (Printable.str _).then (Printable.str _)

theorem printable_call (fn : EntFn) (dirRel : String) (ent : Name) :
    Printable (fn.call T dirRel ent) := by
  have hstr := Printable.str
  have hside := printable_sidecar T dirRel ent
  cases fn with
  | listName =>
      exact (hstr _).then ((hside _ _ _).then ((hside _ _ _).then ((hside _ _ _).then (hstr _))))
  | disk => exact (hstr _).then ((hside _ _ _).then ((hside _ _ _).then (hstr _)))
  | usb =>
      refine Printable.ite Printable.nothing ?_
      exact (hstr _).then ((hside _ _ _).then ((hside _ _ _).then (hstr _)))
  | pci =>
      exact (hstr _).then ((hstr _).then ((hside _ _ _).then ((hside _ _ _).then
        ((hside _ _ _).then (hstr _)))))
  | battery =>
      exact (hstr _).then ((hside _ _ _).then ((hside _ _ _).then ((hside _ _ _).then (hstr _))))
  | thermal =>
      refine Printable.ite Printable.nothing ?_
      exact (hstr _).then ((hside _ _ _).then ((hside _ _ _).then (hstr _)))

theorem printable_show {src : Source} (h : WellPlaced src) : Printable (src.show T) := by
  cases src with
  | walk dirRel fn =>
      show Printable (walkDir T dirRel fn)
      rw [walkDir, joinPath_plain T h.1]
      dsimp only
      split
      · exact Printable.nothing
      · exact Printable.each fun ent _ =>
          Printable.ite Printable.nothing (printable_call T fn dirRel ent)
  | filtered rel =>
      show Printable (readFileFiltered T rel true)
      rw [readFileFiltered, joinPath_plain T h.1]
      dsimp only
      split
      · exact Printable.nothing
      · exact Printable.each fun line _ => Printable.ite Printable.nothing (Printable.str line)
  | board =>
      have hall : ∀ key ∈ boardKeys, Printable (appendKvFile T
          (snprintf pathMax ("sys/class/dmi/id/".toList ++ key.toList)) key.toList) := by
        intro key hkey
        obtain ⟨rel, hplain, -, hrel⟩ := boardRel_plain hkey
        rw [hrel]
        unfold appendKvFile
        rw [joinPath_plain T hplain]
        dsimp only
        refine Printable.ite Printable.nothing ?_
        split
        · exact Printable.nothing
        · exact (Printable.str _).then
            ((Printable.str _).then ((Printable.str _).then (Printable.str _)))
      exact Printable.each hall

/-- **The inventory, whole or cut short.**  For every tree and all flags there is one report.
A buffer with room for it and the NUL takes all of it; in any other one the scan fails with
`-ENOSPC`, and what is in the buffer is a part of the report that leaves room for the NUL. -/
theorem waiScan_whole (flags : Nat) : ∃ report, Whole report (petrushWaiScan T flags) := by
  have hsection : ∀ sec ∈ sections, Printable (showSection T flags sec) := fun sec hsec =>
    Printable.ite ((Printable.str _).then ((Printable.str _).then (Printable.str _))
      |>.then (printable_show T (sections_wellPlaced sec hsec))) Printable.nothing
  obtain ⟨report, hreport⟩ := Printable.each hsection
  exact ⟨report, hreport.whole (petrushWaiScan_eq T flags)⟩

end Wai

/-! ## `netcom` -/

section Netcom

variable (S : Sys) (links : List LinkInfo)

/-- The entries of a directory that are looked at. -/
def entriesOf (rel : String) : List Name :=
  ((S.opendir (below S.toTree rel)).getD []).filter fun ent =>
    ent.text.head? ≠ some '.' && ifaceNameOk ent.text

/-- The type of an interface, as its file has it. -/
def typeOf (ent : Name) : Option Text := readTrim S (besideEnt "sys/class/net" ent "type") 32

/-- The type is `ARPHRD_ETHER`. -/
def isEther (ent : Name) : Bool := (typeOf S ent).any fun t => (strtol t).value = arphrdEther

/-- The interfaces of a section. -/
def etherOf (wifi : Bool) : List Name :=
  (entriesOf S "sys/class/net").filter fun ent => isEther S ent && ifaceIsWifi S ent == wifi

/-- The line about an interface. -/
def ifaceLine (wifi : Bool) (ent : Name) : Text :=
  ent.text ++ " type=".toList ++ (typeOf S ent).getD [] ++ " operstate=".toList ++
    operstateName ((readTrim S (besideEnt "sys/class/net" ent "operstate") 64).getD []) links
      ent.text ++
    (if wifi then " wireless=1".toList else []) ++ "\n".toList

/-- The line about a Bluetooth device. -/
def btLine (dev : Name) : Text :=
  dev.text ++
    ((readTrim S (besideEnt "sys/class/bluetooth" dev "name") 128).elim [] (" name=".toList ++ ·)) ++
    ((readTrim S (besideEnt "sys/class/bluetooth" dev "address") 64).elim []
      (" address=".toList ++ ·)) ++ "\n".toList

/-- A section that may be left out. -/
def sectionText (shown : Prop) [Decidable shown] (name : String) (lines : Text) : Text :=
  if shown then "# ".toList ++ name.toList ++ "\n".toList ++ lines else []

/-- What `netcom` shows. -/
def netReport (flags : Nat) : Text :=
  sectionText (flags &&& netcomWifi ≠ 0) "wifi" ((etherOf S true).flatMap (ifaceLine S links true)) ++
  sectionText (flags &&& netcomEth ≠ 0) "eth" ((etherOf S false).flatMap (ifaceLine S links false)) ++
  sectionText (flags &&& netcomBt ≠ 0) "bt" ((entriesOf S "sys/class/bluetooth").flatMap (btLine S))

/-- The flags a scan goes by. -/
def shownFlags (flags : Nat) : Nat :=
  if flags = 0 then netcomWifi ||| netcomEth ||| netcomBt else flags

/-! ### Lines -/

theorem Prints.exactly {t : Text} (h : nul ∉ t) : Prints (appendStr t) t := by
  have hprints := Prints.str t
  rwa [cstr_eq_self h] at hprints

theorem nul_readTrim {rel : Text} {room : Nat} {t : Text} (h : readTrim S rel room = some t) :
    nul ∉ t := by
  rw [readTrim, Option.map_eq_some_iff] at h
  obtain ⟨line, hline, rfl⟩ := h
  obtain ⟨content, -, hfirst⟩ := Option.bind_eq_some_iff.mp hline
  rw [firstString, Option.map_eq_some_iff] at hfirst
  obtain ⟨piece, -, rfl⟩ := hfirst
  intro hmem
  have hcut := List.mem_takeWhile_imp ((List.rdropWhile_prefix _ _).mem hmem)
  simp at hcut

theorem nul_operstateName {fromSysfs : Text} (h : nul ∉ fromSysfs) (ifname : Text) :
    nul ∉ operstateName fromSysfs links ifname := by
  have hunknown : nul ∉ "unknown".toList := by decide
  have hnames : ∀ name ∈ operstateNames, nul ∉ name.toList := by decide
  unfold operstateName
  split
  · exact h
  · split
    next link _ =>
      rcases Nat.lt_or_ge link.operstate operstateNames.length with hlt | hge
      · rw [List.getD_eq_getElem _ _ hlt]
        exact hnames _ (List.getElem_mem hlt)
      · rw [List.getD_eq_default _ _ hge]
        exact hunknown
    next => exact hunknown

theorem prints_ifaceLine (wifi : Bool) {ent : Name} {t : Text} (h : typeOf S ent = some t)
    (hether : (strtol t).value = arphrdEther) (hwifi : ifaceIsWifi S ent = wifi) :
    Prints (appendNetIface S links wifi ent) (ifaceLine S links wifi ent) := by
  have hloop : ¬ (strtol t).value = arphrdLoopback := by
    rw [hether]
    decide
  have hop : nul ∉ (readTrim S (besideEnt "sys/class/net" ent "operstate") 64).getD [] := by
    cases hread : readTrim S (besideEnt "sys/class/net" ent "operstate") 64 with
    | none => exact List.not_mem_nil
    | some op => exact nul_readTrim S hread
  rw [typeOf] at h
  rw [appendNetIface, h, ifaceLine, typeOf, h]
  dsimp only
  rw [if_neg hloop, if_neg (not_not.mpr hether), if_neg (not_not.mpr hwifi)]
  simp only [List.append_assoc, Option.getD_some]
  refine (Prints.exactly ent.nul_notMem).then ((Prints.str _).then
    ((Prints.exactly (nul_readTrim S h)).then ((Prints.str _).then
      ((Prints.exactly (nul_operstateName links hop _)).then ?_))))
  cases wifi with
  | true => exact (Prints.str _).then (Prints.str _)
  | false => exact Prints.str _

theorem prints_appendNetIface (wifi : Bool) (ent : Name) :
    Prints (appendNetIface S links wifi ent)
      (if isEther S ent && ifaceIsWifi S ent == wifi then ifaceLine S links wifi ent else []) := by
  by_cases hshown : (isEther S ent && ifaceIsWifi S ent == wifi) = true
  · rw [if_pos hshown]
    rw [Bool.and_eq_true, isEther, Option.any_eq_true, beq_iff_eq] at hshown
    obtain ⟨⟨t, ht, hether⟩, hwifi⟩ := hshown
    exact prints_ifaceLine S links wifi ht (of_decide_eq_true hether) hwifi
  · rw [if_neg hshown]
    rw [isEther, typeOf] at hshown
    unfold appendNetIface
    split
    · exact Prints.nothing
    next t ht =>
      rw [ht, Option.any_some, Bool.and_eq_true, beq_iff_eq, decide_eq_true_eq, not_and] at hshown
      dsimp only
      split
      · exact Prints.nothing
      split
      · exact Prints.nothing
      next hether =>
        rw [if_pos (hshown (not_not.mp hether))]
        exact Prints.nothing

/-- A part of the line that may be missing. -/
theorem prints_part {key : String} {value : Option Text} {c : Prog Buffer Unit}
    (hkey : nul ∉ key.toList) (hvalue : ∀ t, value = some t → nul ∉ t)
    (hnone : value = none → c = pure ())
    (hsome : ∀ t, value = some t → c = appendStr key.toList >>= fun _ => appendStr t) :
    Prints c (value.elim [] (key.toList ++ ·)) := by
  cases value with
  | none =>
      rw [hnone rfl]
      exact Prints.nothing
  | some t =>
      rw [hsome t rfl]
      exact (Prints.exactly hkey).then (Prints.exactly (hvalue t rfl))

theorem prints_appendBtDev (dev : Name) : Prints (appendBtDev S dev) (btLine S dev) := by
  rw [appendBtDev, btLine]
  simp only [List.append_assoc]
  refine (Prints.exactly dev.nul_notMem).then (Prints.then ?_ (Prints.then ?_ (Prints.str _)))
  · exact prints_part (by decide) (fun _ => nul_readTrim S) (fun h => by rw [h])
      fun t h => by rw [h]
  · exact prints_part (by decide) (fun _ => nul_readTrim S) (fun h => by rw [h])
      fun t h => by rw [h]

/-! ### Sections -/

theorem prints_scanDir {rel : String} (hplain : Plain rel) {append : Name → Prog Buffer Unit}
    {line : Name → Text} (keep : Name → Bool)
    (h : ∀ ent, Prints (append ent) (if keep ent then line ent else [])) :
    Prints (scanDir S rel append) (((entriesOf S rel).filter keep).flatMap line) := by
  rw [scanDir, joinPath_plain S.toTree hplain, entriesOf, List.filter_filter]
  dsimp only
  cases S.opendir (below S.toTree rel) with
  | none => exact Prints.nothing
  | some entries =>
      refine Prints.filter _ (fun ent => ?_) entries
      by_cases hdot : ent.text.head? = some '.'
      · rw [if_pos hdot, if_neg (by simp [hdot])]
        exact Prints.nothing
      · by_cases hname : ifaceNameOk ent.text = true
        · have hlooked : (ent.text.head? ≠ some '.' && ifaceNameOk ent.text) = true := by
            simp [hdot, hname]
          rw [if_neg hdot, if_neg (by simp [hname]), hlooked, Bool.and_true]
          exact h ent
        · rw [if_neg hdot, if_pos (by simpa using hname), if_neg (by simp [hname])]
          exact Prints.nothing

theorem prints_scanNetClass (wifi : Bool) : Prints (scanNetClass S links wifi)
    ((etherOf S wifi).flatMap (ifaceLine S links wifi)) :=
  prints_scanDir S ⟨by decide, by decide⟩ _ (prints_appendNetIface S links wifi)

theorem prints_scanBt : Prints (scanBt S)
    ((entriesOf S "sys/class/bluetooth").flatMap (btLine S)) := by
  have hplain : Plain "sys/class/bluetooth" := ⟨by decide, by decide⟩
  have hlines := prints_scanDir S hplain (fun _ => true) (prints_appendBtDev S)
  rwa [List.filter_true] at hlines

theorem prints_section (shown : Prop) [Decidable shown] (name : String) {body : Prog Buffer Unit}
    {lines : Text} (hname : nul ∉ name.toList) (h : Prints body lines) :
    Prints (onlyIf shown do
      appendSection name
      body) (sectionText shown name lines) := by
  have hheading : Prints (appendSection name) ("# ".toList ++ name.toList ++ "\n".toList) := by
    rw [List.append_assoc]
    exact (Prints.str _).then ((Prints.exactly hname).then (Prints.str _))
  exact Prints.ite (fun _ => hheading.then h) fun _ => Prints.nothing

/-- A section with its heading. -/
def showNet (flags : Nat) (sec : Nat × String × Prog Buffer Unit) : Prog Buffer Unit :=
  onlyIf (shownFlags flags &&& sec.1 ≠ 0) do
    appendSection sec.2.1
    sec.2.2

theorem petrushNetcomScan_eq (flags cap : Nat) : petrushNetcomScan S links flags cap =
    if cap = 0 then (enospc, [])
    else endOf (forEach (showNet flags) (netSections S links) ⟨cap, []⟩) := by
  unfold petrushNetcomScan petrushNetcomScanImpl
  by_cases hcap : cap = 0
  · subst hcap
    rfl
  · have hrun : (forEach (fun sec => onlyIf
        ((if flags = 0 then netcomWifi ||| netcomEth ||| netcomBt else flags) &&& sec.1 ≠ 0) do
          appendSection sec.2.1
          sec.2.2) (netSections S links)) = forEach (showNet flags) (netSections S links) := rfl
    dsimp only
    rw [if_neg hcap, hrun]
    simp only [bind_apply, Prog.bind, look, id_eq, if_neg hcap, pure_apply, Lib.Run.modify]
    cases forEach (showNet flags) (netSections S links) ⟨cap, []⟩ <;> rfl

/-- **The interfaces, whole or cut short.**  Whatever the kernel and the tree say, the report
is `netReport` of the links and the flags. -/
theorem netcomScan_whole (flags : Nat) :
    Whole (netReport S links (shownFlags flags)) (petrushNetcomScan S links flags) := by
  have hwifi := prints_section (shownFlags flags &&& netcomWifi ≠ 0) "wifi" (by decide)
    (prints_scanNetClass S links true)
  have heth := prints_section (shownFlags flags &&& netcomEth ≠ 0) "eth" (by decide)
    (prints_scanNetClass S links false)
  have hbt := prints_section (shownFlags flags &&& netcomBt ≠ 0) "bt" (by decide)
    (prints_scanBt S)
  have hall := hwifi.then (heth.then (hbt.then Prints.nothing))
  rw [List.append_nil, ← List.append_assoc] at hall
  exact hall.whole (petrushNetcomScan_eq S links flags)

/-- **An interface is in one section.**  Those of the two sections are, in some order, the ones
of type `ARPHRD_ETHER` among the entries that are looked at. -/
theorem ether_once : (etherOf S true ++ etherOf S false).Perm
    ((entriesOf S "sys/class/net").filter (isEther S)) := by
  have hsplit := List.filter_append_perm (ifaceIsWifi S)
    ((entriesOf S "sys/class/net").filter (isEther S))
  rw [List.filter_filter, List.filter_filter] at hsplit
  simpa [etherOf, Bool.and_comm] using hsplit

end Netcom

end Petrush.Verified.Reports
