import Petrush.Mid.Pudo
import Petrush.Verified.Endings

/-!
# The allow-list of `pudo`

`load_pudo_config` takes each piece that `fgets` returns for a line.  A line that does
not fit the buffer is returned in several pieces, so a part of it, or of a comment, can
allow a command; and an allow-list without entries allows every command.

## Main results

* `loadPudoConfig_spec`: the two passes agree on the entries, and there is room for each.
* `onlyLines_iff`: only whole lines allow a command, under an exact condition.
* `entries_short`: lines that fit the buffer are read line by line.
-/

namespace Petrush.Verified.ClientPolicy

open Petrush.Foundation
open Petrush.Lib.CText
open Petrush.Lib.Cells
open Petrush.Lib.Run
open Petrush.Lib.Stdio
open Petrush.Mid.Pudo
open Petrush.Mid.State
open Petrush.Mid.Dispatcher
open Petrush.Verified.Endings

/-! ## The two passes -/

/-- What the loop stores for a piece. -/
def pieceEntry (piece : Text) : Option Text := (entryText piece).map chomp

/-- The entries of an allow-list. -/
def entries (content : Text) : List Text :=
  (fgetsPieces (lineSize - 1) content).filterMap pieceEntry

theorem pieceEntry_none {piece : Text} (h : entryText piece = none) : pieceEntry piece = none := by
  rw [pieceEntry, h]
  rfl

theorem pieceEntry_some {piece p : Text} (h : entryText piece = some p) :
    pieceEntry piece = some (chomp p) := by
  rw [pieceEntry, h]
  rfl

theorem countEntries_spec : ∀ (pieces : List Text) (count : Nat), count < 2 ^ 31 →
    countEntries count pieces =
      if count + (pieces.filterMap pieceEntry).length < 2 ^ 31 then
        .ok (count + (pieces.filterMap pieceEntry).length)
      else .error .bound := by
  intro pieces
  induction pieces with
  | nil =>
      intro count hcount
      rw [countEntries, List.filterMap_nil, List.length_nil, Nat.add_zero, if_pos hcount]
  | cons line rest ih =>
      intro count hcount
      cases hline : entryText line with
      | none =>
          rw [countEntries, hline, List.filterMap_cons_none (pieceEntry_none hline)]
          exact ih count hcount
      | some p =>
          rw [countEntries, hline, List.filterMap_cons_some (pieceEntry_some hline),
            List.length_cons]
          by_cases hnext : count + 1 < 2 ^ 31
          · have hadd : count + ((rest.filterMap pieceEntry).length + 1) =
                count + 1 + (rest.filterMap pieceEntry).length := by omega
            simp only [if_pos hnext]
            rw [ih (count + 1) hnext, hadd]
          · simp only [if_neg hnext]
            rw [if_neg (by omega)]

/-- The storing loop stores every entry, and nothing is written outside. -/
theorem storeEntries_spec (count : Nat) : ∀ (pieces : List Text) (i : Nat)
    (cells : List (Option Text)), i + (pieces.filterMap pieceEntry).length = count →
    cells.length = count + 1 →
    ∃ cells', storeEntries count i cells pieces = .ok (count, cells') ∧
      cells'.length = count + 1 ∧
      cells'.take count = cells.take i ++ (pieces.filterMap pieceEntry).map some := by
  intro pieces
  induction pieces with
  | nil =>
      intro i cells hi hlen
      obtain rfl : i = count := by simpa using hi
      exact ⟨cells, rfl, hlen, by simp⟩
  | cons line rest ih =>
      intro i cells hi hlen
      by_cases hlt : i < count
      · cases hline : entryText line with
        | none =>
            rw [List.filterMap_cons_none (pieceEntry_none hline)] at hi ⊢
            rw [storeEntries, if_pos hlt, hline]
            exact ih i cells hi hlen
        | some p =>
            rw [List.filterMap_cons_some (pieceEntry_some hline)] at hi ⊢
            rw [List.length_cons] at hi
            have hin : i < cells.length := by omega
            have hwrite : write cells i (some (chomp p)) = .ok (cells.set i (some (chomp p))) :=
              if_pos hin
            obtain ⟨cells', hrun, hlen', htake⟩ := ih (i + 1) (cells.set i (some (chomp p)))
              (by omega) (by rw [List.length_set]; exact hlen)
            refine ⟨cells', ?_, hlen', ?_⟩
            · rw [storeEntries, if_pos hlt, hline, ← hrun]
              simp only [hwrite, bind, Except.bind]
            · rw [htake, List.take_succ_eq_append_getElem (by simpa using hin),
                List.take_set_of_le (Nat.le_refl i), List.getElem_set_self]
              simp
      · have hnone : (line :: rest).filterMap pieceEntry = [] := by
          rw [← List.length_eq_zero_iff]
          omega
        rw [hnone] at hi ⊢
        obtain rfl : i = count := by simpa using hi
        refine ⟨cells, ?_, hlen, by simp⟩
        rw [storeEntries, if_neg hlt]

/-- **The two passes agree**: what is loaded are the entries, as long as an `int` can
count them. -/
theorem loadPudoConfig_spec {files : Files} {env : Env} {content : Text}
    (hopen : files.fopen (configPath env) = some content)
    (hcount : (entries content).length < 2 ^ 31) :
    ∃ config, loadPudoConfig files env = .ok config ∧
      (∀ cfg, config = some cfg → cfg.allowed = entries content) ∧
      (files.fseek = true → files.calloc ((entries content).length + 1) = true →
        config.isSome = true) := by
  have hpass := countEntries_spec (fgetsPieces (lineSize - 1) content) 0 (by decide)
  rw [Nat.zero_add, if_pos (by exact hcount)] at hpass
  change _ = Except.ok (entries content).length at hpass
  simp only [loadPudoConfig, hopen, hpass, bind, Except.bind]
  by_cases hseek : files.fseek = true
  · simp only [hseek, Bool.not_true, Bool.false_eq_true, if_false]
    by_cases hnil : (entries content).length = 0
    · refine ⟨some ⟨[], 0⟩, if_pos hnil, ?_, fun _ _ => rfl⟩
      rintro cfg ⟨⟩
      rw [List.length_eq_zero_iff.mp hnil]
      rfl
    · rw [if_neg hnil]
      by_cases hroom : files.calloc ((entries content).length + 1) = true
      · obtain ⟨cells, hrun, hlen, htake⟩ := storeEntries_spec (entries content).length
          (fgetsPieces (lineSize - 1) content) 0
          (List.replicate ((entries content).length + 1) none) (Nat.zero_add _)
          (List.length_replicate ..)
        have hwrite : write cells (entries content).length none =
            .ok (cells.set (entries content).length none) := if_pos (by omega)
        refine ⟨some ⟨cells.set (entries content).length none, (entries content).length⟩, ?_, ?_,
          fun _ _ => rfl⟩
        · simp only [hroom, Bool.not_true, Bool.false_eq_true, if_false, hrun, hwrite, pure,
            Except.pure]
        · rintro cfg ⟨⟩
          rw [Config.allowed, List.take_set_of_le (Nat.le_refl _), htake]
          simp [List.reduceOption, entries]
      · refine ⟨none, ?_, nofun, fun _ h => absurd h hroom⟩
        simp only [hroom, Bool.not_false, if_true, pure, Except.pure]
  · refine ⟨none, ?_, nofun, fun h => absurd h hseek⟩
    simp only [hseek, Bool.not_false, if_true, pure, Except.pure]

/-- More entries than an `int` can count. -/
theorem loadPudoConfig_overflow {files : Files} {env : Env} {content : Text}
    (hopen : files.fopen (configPath env) = some content)
    (hcount : ¬ (entries content).length < 2 ^ 31) :
    loadPudoConfig files env = .error .bound := by
  have hpass := countEntries_spec (fgetsPieces (lineSize - 1) content) 0 (by decide)
  rw [Nat.zero_add, if_neg (by exact hcount)] at hpass
  simp only [loadPudoConfig, hopen, hpass, bind, Except.bind]

/-! ## What the allow-list is meant to be -/

/-- The command on a line: its text behind the leading blanks, unless that is a comment
or nothing. -/
def commandLine (line : Text) : Option Text :=
  match line.dropWhile isIndent with
  | [] => none
  | c :: p => if c = '#' then none else some (c :: p)

/-- A line that is neither a comment nor blank. -/
def HasCommand (content : Text) : Prop := ∃ line ∈ lines content, (commandLine line).isSome = true

/-- The command is the whole text of a line. -/
def Listed (content target : Text) : Prop := ∃ line ∈ lines content, commandLine line = some target

/-- `pudo` reads its allow-list, and hands a command to its helper only when the command
is the whole text of a line. -/
def OnlyLines (content : Text) : Prop :=
  ∀ (files : Files) (O : Outside) (s : Shell) (args : List Text),
    files.fopen (configPath s.ctx.env) = some content →
    ∃ config, loadPudoConfig files s.ctx.env = .ok config ∧
      ((O.pudo s.log s.ctx.env).config = config.map Config.allowed →
        ∀ s' code, builtinPudo O args s = .exit s' code →
          ∃ target rest, args = target :: rest ∧ Listed content target)

/-- An argument that `pudo` answers itself. -/
def IsHelp (target : Text) : Prop := target = "--help".toList ∨ target = "-h".toList

/-- Some piece is an entry, no more than an `int` can count are, and each that is an entry
is the whole text of a line. -/
structure PiecesWhole (content : Text) : Prop where
  entry : entries content ≠ []
  counted : (entries content).length < 2 ^ 31
  whole : ∀ e ∈ entries content, IsHelp e ∨ Listed content e

/-! ## The condition is exact -/

/-- A system on which everything succeeds. -/
def willing (content : Text) : Files := ⟨fun _ => some content, true, fun _ => true⟩

/-- An outside with a helper, and an allow-list. -/
def withList (allowed : List Text) : Outside :=
  { Outside.quiet with pudo := fun _ _ => ⟨some allowed, some "/pudod".toList, id, some 0⟩ }

/-- A command that the entries allow is handed to the helper. -/
theorem handed_of_allowed {content target : Text} (honly : OnlyLines content)
    (hallowed : entries content = [] ∨ target ∈ entries content) (hhelp : ¬ IsHelp target) :
    Listed content target := by
  obtain ⟨config, hrun, hpolicy⟩ :=
    honly (willing content) (withList (entries content)) fresh [target] rfl
  have hcount : (entries content).length < 2 ^ 31 := by
    by_contra h
    rw [loadPudoConfig_overflow rfl h] at hrun
    contradiction
  have hopen : (willing content).fopen (configPath fresh.ctx.env) = some content := rfl
  obtain ⟨config', hrun', hcfg, hsome⟩ := loadPudoConfig_spec hopen hcount
  rw [hrun] at hrun'
  obtain rfl := Except.ok.inj hrun'
  obtain ⟨cfg, rfl⟩ := Option.isSome_iff_exists.mp (hsome rfl rfl)
  have hconfig : ((withList (entries content)).pudo fresh.log fresh.ctx.env).config =
      (some cfg).map Config.allowed := by
    rw [Option.map_some, hcfg cfg rfl]
    rfl
  have hhanded : Handed ((withList (entries content)).pudo fresh.log fresh.ctx.env) [target] := by
    refine ⟨target, [], rfl, hhelp, ⟨entries content, rfl, ?_⟩, rfl, by decide, rfl⟩
    rintro ⟨hne, hnot⟩
    exact hallowed.elim hne hnot
  obtain ⟨s', code, hexit⟩ := (builtinPudo_ends _ _ _).mpr hhanded
  obtain ⟨target', rest, heq, hlisted⟩ := hpolicy hconfig s' code hexit
  obtain ⟨rfl, _⟩ := List.cons.inj heq
  exact hlisted

/-- No line is a newline. -/
theorem not_listed_newline (content : Text) : ¬ Listed content ['\n'] := by
  rintro ⟨line, hline, hcommand⟩
  have hmem : '\n' ∈ line.dropWhile isIndent := by
    unfold commandLine at hcommand
    split at hcommand
    · contradiction
    · next c p hdrop =>
        split at hcommand
        · contradiction
        · rw [hdrop, Option.some.inj hcommand]
          exact List.mem_singleton_self _
  exact not_mem_of_mem_lines hline ((List.dropWhile_sublist _).subset hmem)

/-- **Only whole lines of the allow-list allow a command exactly when every piece that is
an entry is a whole line.** -/
theorem onlyLines_iff (content : Text) :
    (HasCommand content → OnlyLines content) ↔ (HasCommand content → PiecesWhole content) := by
  refine imp_congr_right fun _ => ?_
  constructor
  · intro honly
    refine ⟨?_, ?_, ?_⟩
    · intro hnil
      have hhelp : ¬ IsHelp ['\n'] := by
        unfold IsHelp
        decide
      exact not_listed_newline content (handed_of_allowed honly (Or.inl hnil) hhelp)
    · by_contra hcount
      obtain ⟨config, hrun, _⟩ := honly (willing content) Outside.quiet fresh [] rfl
      rw [loadPudoConfig_overflow rfl hcount] at hrun
      contradiction
    · intro e he
      by_cases hhelp : IsHelp e
      · exact Or.inl hhelp
      · exact Or.inr (handed_of_allowed honly (Or.inr he) hhelp)
  · intro hpieces files O s args hopen
    obtain ⟨config, hrun, hcfg, _⟩ := loadPudoConfig_spec hopen hpieces.counted
    refine ⟨config, hrun, ?_⟩
    intro hconfig s' code hexit
    obtain ⟨target, rest, hargs, hhelp, ⟨allowed, hallowed, hpass⟩, _⟩ :=
      (builtinPudo_ends O args s).mp ⟨s', code, hexit⟩
    rw [hallowed] at hconfig
    obtain ⟨cfg, hcfg', heq⟩ := Option.map_eq_some_iff.mp hconfig.symm
    rw [hcfg cfg hcfg'] at heq
    subst heq
    have hmem : target ∈ entries content := by
      by_contra hnot
      exact hpass ⟨hpieces.entry, hnot⟩
    exact ⟨target, rest, hargs, (hpieces.whole target hmem).resolve_left hhelp⟩

/-- The command `ls` and a comment of 513 bytes, which ends in `id`. -/
def tailComment (pad : Text) : Text := ['l', 's'] ++ '\n' :: ('#' :: pad ++ ['i', 'd', '\n'])

theorem tailComment_entries {pad : Text} (hnl : '\n' ∉ pad) (hlen : pad.length = 510)
    (hnul : nul ∉ pad) : entries (tailComment pad) = [['l', 's'], ['i', 'd']] := by
  have hcomment : entryText ('#' :: pad) = none := by
    rw [entryText, cstr_eq_self (by simp [hnul, show nul ≠ '#' by decide])]
    rfl
  have hpieces : fgetsPieces (lineSize - 1) (tailComment pad) =
      [['l', 's', '\n'], '#' :: pad, ['i', 'd', '\n']] := by
    rw [tailComment, fgetsPieces_line _ (by decide) (by decide),
      fgetsPieces_full _ (by decide) (by simp [hnl]) (by simp [hlen, lineSize])]
    rfl
  rw [entries, hpieces, List.filterMap_cons_some (b := ['l', 's']) (by decide),
    List.filterMap_cons_none (pieceEntry_none hcomment),
    List.filterMap_cons_some (b := ['i', 'd']) (by decide), List.filterMap_nil]

theorem tailComment_lines {pad : Text} (hnl : '\n' ∉ pad) :
    lines (tailComment pad) = [['l', 's'], '#' :: pad ++ ['i', 'd'], []] := by
  have hsplit : '#' :: pad ++ ['i', 'd', '\n'] = ('#' :: pad ++ ['i', 'd']) ++ '\n' :: [] := by
    simp
  rw [tailComment, lines_cons_line _ (by decide), hsplit, lines_cons_line [] (by simp [hnl])]
  rfl

/-- **The tail of a comment allows a command.** -/
theorem comment_allows : ¬ ∀ content : Text, HasCommand content → OnlyLines content := by
  intro h
  have hnl : '\n' ∉ List.replicate 510 'x' :=
    fun h => absurd (List.eq_of_mem_replicate h) (by decide)
  have hnul : nul ∉ List.replicate 510 'x' :=
    fun h => absurd (List.eq_of_mem_replicate h) (by decide)
  have hlen : (List.replicate 510 'x').length = 510 := List.length_replicate
  generalize List.replicate 510 'x' = pad at hnl hnul hlen
  have hcommand : HasCommand (tailComment pad) := by
    refine ⟨['l', 's'], ?_, rfl⟩
    rw [tailComment_lines hnl]
    exact List.mem_cons_self
  have hentries := tailComment_entries hnl hlen hnul
  have hhelp : ¬ IsHelp ['i', 'd'] := by
    unfold IsHelp
    decide
  obtain ⟨line, hline, hcommand⟩ := handed_of_allowed (h _ hcommand)
    (Or.inr (by rw [hentries]; decide)) hhelp
  rw [tailComment_lines hnl] at hline
  rcases List.mem_cons.mp hline with rfl | hline
  · revert hcommand
    decide
  · rcases List.mem_cons.mp hline with rfl | hline
    · have hnone : commandLine ('#' :: pad ++ ['i', 'd']) = none := rfl
      rw [hnone] at hcommand
      contradiction
    · rw [List.mem_singleton.mp hline] at hcommand
      contradiction

/-! ## Lines that fit -/

theorem chomp_line {p : Text} (hnl : '\n' ∉ p) : chomp p = p := by
  rw [chomp, if_neg]
  intro h
  exact hnl (List.mem_of_getLast? h)

theorem chomp_newline (p : Text) : chomp (p ++ ['\n']) = p := by
  rw [chomp, if_pos (by simp), List.dropLast_concat]

/-- A line without NUL is read as its command, with its newline or without. -/
theorem pieceEntry_line {l : Text} (hnul : nul ∉ l) (hnl : '\n' ∉ l) :
    pieceEntry l = commandLine l ∧ pieceEntry (l ++ ['\n']) = commandLine l := by
  have hnul' : nul ∉ l ++ ['\n'] := by
    intro h
    rcases List.mem_append.mp h with h | h
    · exact hnul h
    · exact absurd (List.mem_singleton.mp h) (by decide)
  have hsub : l.dropWhile isIndent ⊆ l := (List.dropWhile_sublist _).subset
  unfold pieceEntry entryText commandLine
  rw [cstr_eq_self hnul, cstr_eq_self hnul']
  cases hdrop : l.dropWhile isIndent with
  | nil =>
      have hall : (l ++ ['\n']).dropWhile isIndent = ['\n'] := by
        rw [List.dropWhile_append, hdrop]
        rfl
      rw [hall]
      exact ⟨rfl, rfl⟩
  | cons c p =>
      rw [hdrop] at hsub
      have happ : (l ++ ['\n']).dropWhile isIndent = (c :: p) ++ ['\n'] := by
        rw [List.dropWhile_append, hdrop]
        rfl
      have hc : c ≠ '\n' := fun h => hnl (h ▸ hsub List.mem_cons_self)
      have hp : '\n' ∉ c :: p := fun h => hnl (hsub h)
      rw [happ]
      by_cases hhash : c = '#'
      · subst hhash
        exact ⟨rfl, rfl⟩
      · have hskip : ¬ (c = '#' ∨ c = '\n') := by simp [hhash, hc]
        constructor
        · simp only [unlessSkipped, if_neg hskip, Option.map_some, chomp_line hp, if_neg hhash]
        · simp only [unlessSkipped, List.cons_append, if_neg hskip, Option.map_some, if_neg hhash]
          rw [← List.cons_append, chomp_newline]

/-- **Lines that fit the buffer are read line by line.** -/
theorem entries_short {content : Text} (hnul : nul ∉ content)
    (hshort : ∀ line ∈ lines content, line.length < lineSize - 1) :
    entries content = (lines content).filterMap commandLine := by
  refine filterMap_fgetsPieces_short hshort ?_ rfl
  intro l hl
  exact pieceEntry_line (fun h => hnul (subset_of_mem_lines hl h)) (not_mem_of_mem_lines hl)

end Petrush.Verified.ClientPolicy
