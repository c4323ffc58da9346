import Petrush.Lib.Stdio
import Petrush.Mid.Source

/-!
# Scripts are read line by line

`LineReader` runs leave the dispatching out: all it can change for the two
readers of a script is the alias table of the next command line and whether the
loop goes on at all.

## Main results

* `fileReads_eq_lineReads_iff`: what is read are the lines of the file exactly
  when every line that is read fits in the buffer.
-/

namespace Petrush.Verified.LineReading

open Petrush.Lib.CText
open Petrush.Lib.Stdio
open Petrush.Mid.Alias
open Petrush.Mid.Ast
open Petrush.Mid.Heredoc
open Petrush.Mid.Source

/-- `fill_heredocs` reads its lines one by one in this way. -/
theorem fillHeredocs_cons (aliases : Table) {list : PList} (raw : Text) (lines : List Text)
    (h : listHeredocPending list = true) :
    fillHeredocs list (chomp raw :: lines) =
      match takeLine aliases (.filling list) raw with
      | .more list' | .ready list' => fillHeredocs list' lines
      | _ => none := by
  simp only [fillHeredocs, h, Bool.not_true, Bool.false_eq_true, if_false, takeLine]
  by_cases hneg : (petrushHeredocFeedLine list (some (chomp raw))).1 < 0
  · simp [hneg]
  · by_cases hp : listHeredocPending (petrushHeredocFeedLine list (some (chomp raw))).2 = true
    · simp [hneg, hp]
    · simp [hneg, hp]

/-! ## The reader alone -/

/-- `none` once a here-document has failed; else the alias tables of the turns to
come (the loop ends after the last one) and who reads. -/
abbrev ReaderState := Option (List Table × Mode)

/-- The reader of `run_file_lines`. -/
def reader : LineReader ReaderState where
  stops
    | none | some ([], _) => true
    | some (_ :: _, _) => false
  next
    | none, _ => none
    | some ([], mode), _ => some ([], mode)
    | some (aliases :: later, mode), raw =>
        match takeLine aliases mode raw with
        | .skip | .bad => some (aliases :: later, .command)
        | .failed => none
        | .more list => some (aliases :: later, .filling list)
        | .ready _ => some (later, .command)

/-- What becomes of a string. -/
inductive Handed where
  | skipped (raw : Text)
  | command (raw : Text)
  | body (raw : Text)
  deriving Repr, DecidableEq

/-- The string itself. -/
def Handed.raw : Handed → Text
  | .skipped raw | .command raw | .body raw => raw

/-- Whom a string is handed to. -/
def handed (x : ReaderState × Text) : Handed :=
  match x.1 with
  | some (_, .filling _) => .body x.2
  | _ => if commandSkipped x.2 then .skipped x.2 else .command x.2

/-- What the strings read from a file become, when the turns find these alias
tables. -/
def fileReads (tables : List Table) (s : Text) : List Handed :=
  (reader.reads (some (tables, .command)) (fgetsPieces linebufRoom s)).map handed

/-- The same when the strings are the lines of the file. -/
def lineReads (tables : List Table) (s : Text) : List Handed :=
  (reader.reads (some (tables, .command)) (fileLines s)).map handed

theorem handed_raw (x : ReaderState × Text) : (handed x).raw = x.2 := by
  unfold handed
  split
  · rfl
  · split <;> rfl

/-- **Scripts are read line by line** exactly when every line that is read has at
most 4095 bytes, its newline included. -/
theorem fileReads_eq_lineReads_iff (tables : List Table) (s : Text) :
    fileReads tables s = lineReads tables s ↔ ∀ r ∈ lineReads tables s, r.raw.length ≤ 4095 := by
  have hroom : 0 < linebufRoom := by decide
  have hout : ∀ x y : ReaderState × Text, handed x = handed y → x.2 = y.2 := by
    intro x y h
    rw [← handed_raw x, ← handed_raw y, h]
  unfold fileReads lineReads
  rw [reader.reads_pieces_iff hroom handed hout]
  constructor
  · intro h r hr
    obtain ⟨x, hx, rfl⟩ := List.mem_map.mp hr
    rw [handed_raw]
    exact h x hx
  · intro h x hx
    have hfit := h (handed x) (List.mem_map_of_mem hx)
    rwa [handed_raw] at hfit

/-- A string that begins with `#` is passed over. -/
theorem commandSkipped_hash (t : Text) : commandSkipped ('#' :: t) = true := by
  have hcstr : cstr ('#' :: t) = '#' :: cstr t := by
    have hne : ('#' != nul) = true := by decide
    simp only [cstr, List.takeWhile_cons, hne, if_true]
  have hchomp : ∃ u, chomp ('#' :: t) = '#' :: u := by
    unfold chomp
    rw [hcstr]
    by_cases hlast : ('#' :: cstr t).getLast? = some '\n'
    · rw [if_pos hlast]
      cases hrest : cstr t with
      | nil => simp [hrest] at hlast
      | cons c u => exact ⟨(c :: u).dropLast, by simp⟩
    · rw [if_neg hlast]
      exact ⟨_, rfl⟩
  obtain ⟨u, hu⟩ := hchomp
  simp [commandSkipped, commandStart, hu]

/-- A comment of 4095 bytes and one more byte, `t`. -/
private theorem comment_cut {w : Text} (hnl : '\n' ∉ '#' :: w) (hlen : w.length + 1 = linebufRoom) :
    fileReads [[]] ('#' :: w ++ "t\n".toList) =
        [.skipped ('#' :: w), .command "t\n".toList] ∧
      lineReads [[]] ('#' :: w ++ "t\n".toList) = [.skipped ('#' :: w ++ "t\n".toList)] := by
  have hpieces : fgetsPieces linebufRoom ('#' :: w ++ "t\n".toList) =
      ['#' :: w, "t\n".toList] := by
    rw [fgetsPieces_full "t\n".toList (by decide) hnl hlen]
    have htail := fgetsPieces_line (k := linebufRoom) (t := ['t']) [] (by decide) (by decide)
    simpa using htail
  have hnl' : '\n' ∉ '#' :: w ++ ['t'] := by
    rw [List.mem_append, not_or]
    exact ⟨hnl, by decide⟩
  have hlines : fileLines ('#' :: w ++ "t\n".toList) = ['#' :: w ++ "t\n".toList] := by
    have hline := fileLines_line [] hnl'
    simpa using hline
  have hskip := commandSkipped_hash w
  have hskip' : commandSkipped ('#' :: w ++ "t\n".toList) = true :=
    commandSkipped_hash (w ++ "t\n".toList)
  have hcommand : commandSkipped "t\n".toList = false := by decide
  constructor
  · unfold fileReads
    rw [hpieces]
    simp only [LineReader.reads, reader, takeLine, hskip, if_true, List.map_cons, handed,
      Bool.false_eq_true, if_false, hcommand, List.map_nil]
  · unfold lineReads
    rw [hlines]
    simp only [LineReader.reads, reader, List.map_cons, List.map_nil, handed, Bool.false_eq_true,
      if_false]
    rw [if_pos hskip']

/-- **The tail of a long comment is executed**: the line `#xx…xt` of 4096 bytes is
one comment, but its last byte is handed on as the command `t`. -/
theorem longComment_handed :
    fileReads [[]] ('#' :: List.replicate 4094 'x' ++ "t\n".toList) =
        [.skipped ('#' :: List.replicate 4094 'x'), .command "t\n".toList] ∧
      lineReads [[]] ('#' :: List.replicate 4094 'x' ++ "t\n".toList) =
        [.skipped ('#' :: List.replicate 4094 'x' ++ "t\n".toList)] := by
  have hnl : ∀ n : Nat, '\n' ∉ '#' :: List.replicate n 'x' := by
    intro n h
    rcases List.mem_cons.mp h with h | h
    · contradiction
    · exact absurd (List.eq_of_mem_replicate h) (by decide)
  have hlen : (List.replicate 4094 'x').length + 1 = linebufRoom := by
    rw [List.length_replicate]
    rfl
  exact comment_cut (hnl 4094) hlen

end Petrush.Verified.LineReading
