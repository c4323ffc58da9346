import Petrush.Mid.Alias
import Petrush.Verified.CommandWord

/-!
# Aliases and the command word

`alias_expand_line` ends the first word of the line at fewer bytes than the parser does:
a word that `;` ends is not found, and one behind a redirection is not looked for.

## Main results

* `Valid.aliasSet`, `Valid.aliasUnset`: the names in a table.
* `aliasExpandLine_of_get`: the word that is replaced is the command word.
* `aliasExpandLine_eq_iff`: when the command word is replaced.
-/

namespace Petrush.Verified.AliasWords

open Petrush.Lib.CText
open Petrush.Mid.Alias
open Petrush.Mid.Ast
open Petrush.Mid.Parser
open Petrush.Verified.CommandWord
open Petrush.Verified.LineScan
open Petrush.Verified.Segments
open Petrush.Verified.Surface

/-! ## Tables -/

/-- Every name is one that `alias_set` accepts. -/
def Valid (table : Table) : Prop :=
  ∀ slot ∈ table, ∀ entry ∈ slot, validName entry.1 = true ∧ entry.1.length < aliasNameMax

/-- No slot is used. -/
theorem valid_replicate (n : Nat) : Valid (List.replicate n none) := by
  intro slot hslot entry hentry
  rw [(List.mem_replicate.mp hslot).2] at hentry
  contradiction

theorem Valid.tail {slot : Option (Text × Text)} {table : Table} (h : Valid (slot :: table)) :
    Valid table := fun s hs => h s (List.mem_cons_of_mem _ hs)

theorem Valid.cons {slot : Option (Text × Text)} {table : Table}
    (hslot : ∀ entry ∈ slot, validName entry.1 = true ∧ entry.1.length < aliasNameMax)
    (h : Valid table) : Valid (slot :: table) := by
  intro s hs
  rcases List.mem_cons.mp hs with rfl | hs
  · exact hslot
  · exact h s hs

theorem Valid.setFirst {p : Option (Text × Text) → Bool} {name value : Text}
    (hname : validName name = true ∧ name.length < aliasNameMax) :
    ∀ {table table' : Table}, Valid table → setFirst p (name, value) table = some table' →
      Valid table' := by
  intro table
  induction table with
  | nil => exact fun _ h => by simp [Mid.Alias.setFirst] at h
  | cons slot table ih =>
      intro table' hvalid h
      have hentry : ∀ entry ∈ some (name, value),
          validName entry.1 = true ∧ entry.1.length < aliasNameMax := by
        intro entry hentry
        obtain rfl := Option.some.inj hentry
        exact hname
      rw [Mid.Alias.setFirst] at h
      split at h
      · obtain rfl := Option.some.inj h
        exact hvalid.tail.cons hentry
      · obtain ⟨rest, hrest, rfl⟩ := Option.map_eq_some_iff.mp h
        exact (ih hvalid.tail hrest).cons (hvalid slot List.mem_cons_self)

/-- **`alias_set`** keeps the names valid. -/
theorem Valid.aliasSet {table table' : Table} {name value : Text} (hvalid : Valid table)
    (h : aliasSet table name value = some table') : Valid table' := by
  unfold Mid.Alias.aliasSet at h
  split at h
  · simp at h
  next hok =>
    have hname : validName name = true ∧ name.length < aliasNameMax := by
      rw [not_or, not_or, Decidable.not_not] at hok
      exact ⟨hok.1, by omega⟩
    split at h
    next found hfound =>
      obtain rfl := Option.some.inj h
      exact hvalid.setFirst hname hfound
    next => exact hvalid.setFirst hname h

/-- **`alias_unset`** keeps the names valid. -/
theorem Valid.aliasUnset {name : Text} :
    ∀ {table table' : Table}, Valid table → aliasUnset name table = some table' →
      Valid table' := by
  intro table
  induction table with
  | nil => exact fun _ h => by simp [Mid.Alias.aliasUnset] at h
  | cons slot table ih =>
      intro table' hvalid h
      rw [Mid.Alias.aliasUnset] at h
      split at h
      · obtain rfl := Option.some.inj h
        exact hvalid.tail.cons (fun entry hentry => by simp at hentry)
      · obtain ⟨rest, hrest, rfl⟩ := Option.map_eq_some_iff.mp h
        exact (ih hvalid.tail hrest).cons (hvalid slot List.mem_cons_self)

/-- A name that is found is valid. -/
theorem Valid.of_get {table : Table} (hvalid : Valid table) {name value : Text}
    (h : aliasGet table name = some value) :
    validName name = true ∧ name.length < aliasNameMax := by
  obtain ⟨slot, hslot, hvalue⟩ := Option.bind_eq_some_iff.mp h
  obtain ⟨⟨n, v⟩, rfl, -⟩ := Option.map_eq_some_iff.mp hvalue
  have hname : n = name := by simpa [holds] using List.find?_some hslot
  subst hname
  exact hvalid _ (List.mem_of_find?_eq_some hslot) (n, v) rfl

/-! ## Names -/

theorem toNat_of_isalnum {c : Char} (h : isalnum c = true) : 48 ≤ c.toNat := by
  have hcases : c.isAlpha = true ∨ c.isDigit = true := by
    simpa [isalnum, Char.isAlphanum] using h
  simp only [Char.isAlpha, Char.isUpper, Char.isLower, Char.isDigit, Bool.or_eq_true,
    Bool.and_eq_true, decide_eq_true_eq] at hcases
  have hval : ∀ n : UInt32, n ≤ c.val → n.toNat ≤ c.toNat := fun n hn => hn
  rcases hcases with (⟨hlow, -⟩ | ⟨hlow, -⟩) | ⟨hlow, -⟩
  · exact Nat.le_trans (by decide) (hval 65 hlow)
  · exact Nat.le_trans (by decide) (hval 97 hlow)
  · exact hval 48 hlow

theorem isWordChar_of_isalnum {c : Char} (h : isalnum c = true) : isWordChar c = true := by
  have hlow := toNat_of_isalnum h
  have hne : ∀ d : Char, isalnum d = false → c ≠ d := by
    rintro d hd rfl
    rw [h] at hd
    contradiction
  rw [isWordChar_iff]
  refine ⟨?_, ?_, hne _ (by decide), hne _ (by decide), hne _ (by decide), hne _ (by decide),
    hne _ (by decide), hne _ (by decide), hne _ (by decide), hne _ (by decide),
    hne _ (by decide), hne _ (by decide)⟩
  · have hblank := hne ' ' (by decide)
    simp [isspace, hblank]
    omega
  · simp [Mid.Lexer.isQuote, hne '"' (by decide), hne '\'' (by decide)]

/-- The bytes of a name. -/
theorem isWordChar_of_validName {name : Text} (h : validName name = true) :
    name ≠ [] ∧ (∀ c ∈ name, isWordChar c = true) ∧ name.head? ≠ some '2' := by
  cases name with
  | nil => simp [validName] at h
  | cons c s =>
      simp only [validName, Bool.and_eq_true, List.all_eq_true, Bool.or_eq_true, beq_iff_eq] at h
      obtain ⟨hfirst, hall⟩ := h
      refine ⟨List.cons_ne_nil c s, fun d hd => ?_, fun htwo => ?_⟩
      · rcases hall d hd with (hd | rfl) | rfl
        · exact isWordChar_of_isalnum hd
        · decide
        · decide
      · obtain rfl : c = '2' := by simpa using htwo
        revert hfirst
        decide

theorem isAliasChar_of_isWordChar {c : Char} (h : isWordChar c = true) : isAliasChar c = true := by
  obtain ⟨hsp, -, -, -, hp, ha, hl, hg, -⟩ := (isWordChar_iff c).mp h
  simp [isAliasChar, hsp, hp, ha, hl, hg]

/-! ## The word that is replaced -/

/-- The first word of `alias_expand_line`. -/
def aliasWord (line : Text) : Text := (line.dropWhile isspace).takeWhile isAliasChar

/-- What is behind it. -/
def aliasRest (line : Text) : Text := (line.dropWhile isspace).dropWhile isAliasChar

theorem aliasWord_append_aliasRest (line : Text) :
    line.dropWhile isspace = aliasWord line ++ aliasRest line :=
  List.takeWhile_append_dropWhile.symm

theorem head_aliasRest {line : Text} : ∀ c ∈ (aliasRest line).head?, isAliasChar c = false := by
  intro c hc
  cases hrest : aliasRest line with
  | nil => simp [hrest] at hc
  | cons d s =>
      obtain rfl : d = c := by simpa [hrest] using hc
      unfold aliasRest at hrest
      have hd := List.head_dropWhile_not isAliasChar (l := line.dropWhile isspace) (by simp [hrest])
      simpa [hrest] using hd

theorem lineStop_aliasRest (line : Text) : lineStop (aliasRest line) = true := by
  cases hrest : aliasRest line with
  | nil => rfl
  | cons c s =>
      have hc := head_aliasRest c (by rw [hrest]; rfl)
      simp only [isAliasChar, Bool.not_eq_false'] at hc
      simp [lineStop, hc]

/-- `alias_expand_line`, when the word is an alias. -/
theorem aliasExpandLine_some {table : Table} (hvalid : Valid table) {line value : Text}
    (hget : aliasGet table (aliasWord line) = some value) :
    aliasExpandLine table line = value ++ aliasRest line := by
  obtain ⟨hname, hlen⟩ := hvalid.of_get hget
  have hne := (isWordChar_of_validName hname).1
  have hword : ¬ (aliasWord line = [] ∨ (aliasWord line).length ≥ aliasNameMax) := by
    rw [not_or]
    exact ⟨hne, by omega⟩
  rw [aliasWord] at hget hword
  simp only [aliasExpandLine, if_neg hword, hget, aliasRest]

theorem aliasExpandLine_none {table : Table} {line : Text}
    (hget : aliasGet table (aliasWord line) = none) :
    aliasExpandLine table line = line.dropWhile isspace := by
  rw [aliasWord] at hget
  simp only [aliasExpandLine, hget, ite_self]

/-- **The word that is replaced** is the command word. -/
theorem commandWord_of_get {table : Table} (hvalid : Valid table) {line value : Text}
    (h : aliasGet table (aliasWord line) = some value) :
    commandWord line = some (0, ⟨aliasWord line, .unquoted⟩, (aliasWord line).length) := by
  obtain ⟨hne, hword, htwo⟩ := isWordChar_of_validName (hvalid.of_get h).1
  exact commandWord_plain (aliasWord_append_aliasRest line) hne hword htwo (lineStop_aliasRest line)

/-! ## The command word -/

/-- The line with its command word replaced, when that is unquoted and an alias. -/
def expanded (table : Table) (line : Text) : Text :=
  match commandWord line with
  | some (i, ⟨text, .unquoted⟩, len) =>
      match aliasGet table text with
      | some value =>
          (line.dropWhile isspace).take i ++ (value ++ (line.dropWhile isspace).drop (i + len))
      | none => line.dropWhile isspace
  | _ => line.dropWhile isspace

/-- A command word that is an alias stands first, and `;` is not behind it; or its value is
the word itself. -/
def Replaced (table : Table) (line : Text) : Prop :=
  ∀ i text len value, commandWord line = some (i, ⟨text, .unquoted⟩, len) →
    aliasGet table text = some value →
    (i = 0 ∧ ((line.dropWhile isspace).drop len).head? ≠ some ';') ∨ value = text

/-- A command word that stands first, and that `;` does not end, is the first word. -/
theorem aliasWord_of_commandWord {table : Table} (hvalid : Valid table) {line text value : Text}
    {len : Nat} (h : commandWord line = some (0, ⟨text, .unquoted⟩, len))
    (hget : aliasGet table text = some value)
    (hsemi : ((line.dropWhile isspace).drop len).head? ≠ some ';') : aliasWord line = text := by
  obtain ⟨htext, hstop⟩ := commandWord_text h rfl
  rw [List.drop_zero] at htext
  rw [Nat.zero_add] at hstop
  obtain ⟨-, hword, -⟩ := isWordChar_of_validName (hvalid.of_get hget).1
  have hall : ∀ c ∈ text, isAliasChar c = true := fun c hc =>
    isAliasChar_of_isWordChar (hword c hc)
  have hsplit : line.dropWhile isspace = text ++ (line.dropWhile isspace).drop len := by
    conv_lhs => rw [← List.take_append_drop len (line.dropWhile isspace), ← htext]
  rw [aliasWord, hsplit, List.takeWhile_append_of_pos hall]
  cases hrest : (line.dropWhile isspace).drop len with
  | nil => simp
  | cons c s =>
      rw [hrest] at hstop hsemi
      have hc : isAliasChar c = false := by
        have hne : (c == ';') = false := by
          simpa using fun hc : c = ';' => hsemi (by rw [hc]; rfl)
        rw [isAliasChar, Bool.not_eq_false']
        simpa only [lineStop, hne, Bool.or_false] using hstop
      rw [List.takeWhile_cons_of_neg (by simp [hc]), List.append_nil]

/-- The line with its command word, and with its value. -/
theorem take_append_value_iff {line text value : Text} {i len : Nat}
    (htext : text = (line.drop i).take len) :
    line.take i ++ (value ++ line.drop (i + len)) = line ↔ value = text := by
  have hline : line = line.take i ++ (text ++ line.drop (i + len)) := by
    rw [htext, ← List.drop_drop, List.take_append_drop, List.take_append_drop]
  constructor
  · intro h
    exact List.append_cancel_right (List.append_cancel_left (h.trans hline))
  · rintro rfl
    exact hline.symm

theorem aliasExpandLine_eq_iff {table : Table} (hvalid : Valid table) (line : Text) :
    aliasExpandLine table line = expanded table line ↔ Replaced table line := by
  cases hget : aliasGet table (aliasWord line) with
  | some value =>
      rw [aliasExpandLine_some hvalid hget]
      have hword := commandWord_of_get hvalid hget
      refine iff_of_true ?_ (fun i text len v h _ => .inl ?_)
      · simp only [expanded, hword, hget]
        rw [aliasWord_append_aliasRest line]
        simp
      · rw [hword] at h
        simp only [Option.some.injEq, Prod.mk.injEq, Word.mk.injEq, and_true] at h
        obtain ⟨rfl, -, rfl⟩ := h
        refine ⟨rfl, fun hsemi => ?_⟩
        rw [aliasWord_append_aliasRest line, List.drop_left] at hsemi
        exact absurd (head_aliasRest ';' hsemi) (by decide)
  | none =>
      rw [aliasExpandLine_none hget, eq_comm, expanded]
      split
      next i text len hword =>
        have htext := (commandWord_text hword rfl).1
        split
        next value hvalue =>
          rw [take_append_value_iff htext]
          constructor
          · intro hsame i' text' len' value' hword' hvalue'
            rw [hword] at hword'
            simp only [Option.some.injEq, Prod.mk.injEq, Word.mk.injEq, and_true] at hword'
            obtain ⟨rfl, rfl, rfl⟩ := hword'
            exact .inr ((Option.some.inj (hvalue'.symm.trans hvalue)).trans hsame)
          · intro hreplaced
            refine (hreplaced i text len value hword hvalue).resolve_left ?_
            rintro ⟨rfl, hsemi⟩
            rw [aliasWord_of_commandWord hvalid hword hvalue hsemi, hvalue] at hget
            contradiction
        next hvalue =>
          refine iff_of_true rfl fun i' text' len' value' hword' hvalue' => ?_
          rw [hword] at hword'
          simp only [Option.some.injEq, Prod.mk.injEq, Word.mk.injEq, and_true] at hword'
          obtain ⟨-, rfl, -⟩ := hword'
          rw [hvalue] at hvalue'
          contradiction
      next hword =>
        exact iff_of_true rfl fun i text len value h _ => absurd h (hword i text len)

/-- A table that `alias_set` and `alias_unset` can build. -/
abbrev ValidTable := { table : Table // Valid table }

/-- **The command word** of a line that begins with a simple command is `argv[0]`, and
`alias_expand_line` replaces it exactly then. -/
theorem commandWord_replaced_iff (table : ValidTable) {line : Text} {it : Item} {items : PList}
    {pl : Pipeline} (h : petrushParseList line = some (it :: items))
    (hkind : it.kind = .pipeline pl) :
    ∃ i w len cmd cmds ws, commandWord line = some (i, w, len) ∧ pl.cmds = cmd :: cmds ∧
      cmd.argv = w :: ws ∧
      (aliasExpandLine table.1 line = expanded table.1 line ↔ Replaced table.1 line) := by
  obtain ⟨i, w, len, cmd, cmds, ws, hword, hcmds, hargv⟩ := commandWord_spec h hkind
  exact ⟨i, w, len, cmd, cmds, ws, hword, hcmds, hargv, aliasExpandLine_eq_iff table.2 line⟩

/-- `ll`, for `ls`. -/
def llTable : ValidTable :=
  ⟨[some (['l', 'l'], ['l', 's'])],
    Valid.cons (fun entry hentry => by
      obtain rfl := Option.some.inj hentry
      decide) (fun slot hslot => by simp at hslot)⟩

/-- A command of one word. -/
def wordCmd (text : Text) : Cmd := { argv := [⟨text, .unquoted⟩] }

theorem commandWord_replaced_iff_ll :
    ∃ i w len cmd cmds ws, commandWord [' ', 'l', 'l', '|', 'w'] = some (i, w, len) ∧
      [wordCmd ['l', 'l'], wordCmd ['w']] = cmd :: cmds ∧ cmd.argv = w :: ws ∧
      (aliasExpandLine llTable.1 [' ', 'l', 'l', '|', 'w'] =
        expanded llTable.1 [' ', 'l', 'l', '|', 'w'] ↔
        Replaced llTable.1 [' ', 'l', 'l', '|', 'w']) := by
  have hparse : petrushParseList [' ', 'l', 'l', '|', 'w'] =
      some [⟨.pipeline ⟨[wordCmd ['l', 'l'], wordCmd ['w']]⟩, .always, false⟩] := rfl
  exact commandWord_replaced_iff llTable hparse rfl

/-- In `ll;w` the word `ll` is not replaced. -/
theorem semicolon_taken :
    ¬ ∀ (table : ValidTable) (line : Text) (it : Item) (items : PList) (pl : Pipeline),
      petrushParseList line = some (it :: items) → it.kind = .pipeline pl →
        aliasExpandLine table.1 line = expanded table.1 line := by
  intro h
  have hsame := h llTable ['l', 'l', ';', 'w']
    ⟨.pipeline ⟨[wordCmd ['l', 'l']]⟩, .always, false⟩
    [⟨.pipeline ⟨[wordCmd ['w']]⟩, .always, false⟩] ⟨[wordCmd ['l', 'l']]⟩ rfl rfl
  revert hsame
  decide

end Petrush.Verified.AliasWords
