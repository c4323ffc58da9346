import Petrush.Mid.Read

/-!
# A `read` reads its own input

What `stdin` has buffered survives the redirection that it was read from, and the one that
comes next.  A `read` finds the lines of its own file when nothing else is buffered before
it, and the line fits in the buffer of `builtin_read`.

## Main results

* `builtinRead_right_iff`: one call, on a stream whose bytes are all of one file.
* `step_right_iff`, `Inv.step`: a command.
* `reads_iff`: a run.
-/

namespace Petrush.Verified.Reading

open Petrush.Foundation
open Petrush.Lib.CText
open Petrush.Lib.Stdio
open Petrush.Lib.Streams
open Petrush.Mid.Ast
open Petrush.Mid.Read

/-! ## Values -/

/-- The value of a line. -/
def value (line : Text) : Text := line.takeWhile (· ≠ '\n')

/-- A line of a file has a newline at its end at most. -/
theorem line_of_fileLines {s l : Text} {ls : List Text} (h : fileLines s = l :: ls) :
    ∃ t, '\n' ∉ t ∧ (l = t ∨ l = t ++ ['\n']) := by
  rcases line_split s with hs | ⟨t, r, ht, rfl⟩
  · by_cases hne : s = []
    · simp [hne] at h
    · rw [fileLines_last hs hne] at h
      exact ⟨s, hs, .inl (List.cons.inj h).1.symm⟩
  · rw [fileLines_line r ht] at h
    exact ⟨t, ht, .inr (List.cons.inj h).1.symm⟩

theorem value_line {t : Text} (ht : '\n' ∉ t) : value t = t ∧ value (t ++ ['\n']) = t := by
  have hall : ∀ c ∈ t, decide (c ≠ '\n') = true := fun c hc =>
    decide_eq_true fun h => ht (h ▸ hc)
  refine ⟨List.takeWhile_eq_self_iff.mpr hall, ?_⟩
  rw [value, List.takeWhile_append_of_pos hall]
  simp

theorem cstr_eq_self_iff {t : Text} : cstr t = t ↔ nul ∉ t := by
  refine ⟨fun h hmem => ?_, cstr_eq_self⟩
  have hne := List.takeWhile_eq_self_iff.mp h nul hmem
  simp at hne

theorem chompBuf_of_newline_notMem {t : Text} (ht : '\n' ∉ t) : chompBuf t = cstr t := by
  rw [chompBuf, if_neg]
  intro h
  exact ht ((List.takeWhile_sublist _).subset (List.mem_of_getLast? h))

/-- A line is assigned whole when it has no NUL. -/
theorem chompBuf_eq_value_iff {s l : Text} {ls : List Text} (h : fileLines s = l :: ls) :
    chompBuf l = value l ↔ nul ∉ l := by
  obtain ⟨t, ht, rfl | rfl⟩ := line_of_fileLines h
  · rw [(value_line ht).1, chompBuf_of_newline_notMem ht, cstr_eq_self_iff]
  · have hmem : nul ∉ t ++ ['\n'] ↔ nul ∉ t := by simp [nul]
    rw [(value_line ht).2, hmem]
    by_cases hnul : nul ∈ t
    · have hcut : cstr (t ++ ['\n']) = cstr t := by
        rw [cstr, List.takeWhile_append, if_neg]
        · rfl
        · intro hlen
          have hself := (List.takeWhile_sublist (fun c => c != nul)).eq_of_length hlen
          exact cstr_eq_self_iff.mp hself hnul
      have hchomp : chompBuf (t ++ ['\n']) = chompBuf t := by rw [chompBuf, chompBuf, hcut]
      rw [hchomp, chompBuf_of_newline_notMem ht, cstr_eq_self_iff]
    · refine iff_of_true ?_ hnul
      have hself : cstr (t ++ ['\n']) = t ++ ['\n'] := cstr_eq_self (hmem.mpr hnul)
      simp [chompBuf, hself]

/-! ## One call -/

section Call

variable (block : ℕ+)

/-- The line is returned, and nothing else, and it is the value. -/
structure Whole (name : Text) (line : Option Text) (o : Outcome) : Prop where
  taken : o.taken.map Byte.char = line.getD []
  assigned : o.assigned = line.map fun l => (name, value l)

/-- The line fits in the buffer, has no NUL, and the variable can be set. -/
def LineFits (name : Text) (line : Option Text) : Prop :=
  ∀ l ∈ line, l.length ≤ bufRoom ∧ nul ∉ l ∧ envNameInvalid name = false

/-- What `builtin_read` makes of what `fgets` returns. -/
theorem builtinRead_spec {name : Text} (hname : name ≠ []) (word : Text) (env : Env)
    (stdin : Stream Byte) :
    (builtinRead block [word, name] env stdin).1.taken = (fgets block Byte.char bufRoom stdin).1 ∧
    (builtinRead block [word, name] env stdin).2.2 = (fgets block Byte.char bufRoom stdin).2 ∧
    (builtinRead block [word, name] env stdin).1.assigned =
      if (fgets block Byte.char bufRoom stdin).1 = [] ∨ envNameInvalid name = true then none
      else some (name, chompBuf ((fgets block Byte.char bufRoom stdin).1.map Byte.char)) := by
  rw [builtinRead, if_neg hname]
  generalize fgets block Byte.char bufRoom stdin = r
  obtain ⟨taken, rest⟩ := r
  cases taken with
  | nil => simp
  | cons b taken => cases hinvalid : envNameInvalid name <;> simp [setenv, hinvalid]

/-- **One call of `builtin_read`** returns the next line when the line fits. -/
theorem builtinRead_whole_iff {name : Text} (hname : name ≠ []) (word : Text) (env : Env)
    (stdin : Stream Byte) :
    Whole name (fileLines (stdin.text Byte.char)).head?
        (builtinRead block [word, name] env stdin).1 ↔
      LineFits name (fileLines (stdin.text Byte.char)).head? := by
  obtain ⟨htaken, -, hassigned⟩ := builtinRead_spec block hname word env stdin
  cases hlines : fileLines (stdin.text Byte.char) with
  | nil =>
      obtain ⟨hnil, -⟩ := fgets_end block Byte.char (k := bufRoom) hlines
      refine iff_of_true ⟨?_, ?_⟩ (fun l hl => by simp at hl)
      · rw [htaken, hnil]
        rfl
      · rw [hassigned, if_pos (.inl hnil)]
        rfl
  | cons l ls =>
      have hline := fgets_eq_line_iff block Byte.char (by decide : 0 < bufRoom) hlines
      have hvalue := chompBuf_eq_value_iff hlines
      have hsome : (fgets block Byte.char bufRoom stdin).1 ≠ [] := by
        intro hnil
        have htext : stdin.text Byte.char = [] := by
          rw [Stream.text, fgets_eq_nil block Byte.char hnil, List.map_nil]
        simp [htext] at hlines
      constructor
      · intro h l' hl'
        obtain rfl : l = l' := by simpa using hl'
        have hsame : (fgets block Byte.char bufRoom stdin).1.map Byte.char = l := by
          rw [← htaken]
          exact h.taken
        have hset := hassigned.symm.trans h.assigned
        rw [hsame] at hset
        split at hset
        · simp at hset
        · next hvalid =>
            rw [not_or, Bool.not_eq_true] at hvalid
            have hchomp : chompBuf l = value l := by simpa using hset
            exact ⟨hline.mp hsame, hvalue.mp hchomp, hvalid.2⟩
      · intro h
        obtain ⟨hlength, hnul, hvalid⟩ := h l rfl
        have hsame := hline.mpr hlength
        refine ⟨by rw [htaken]; exact hsame, ?_⟩
        rw [hassigned, if_neg (by simp [hsome, hvalid]), hsame, hvalue.mpr hnul]
        rfl

/-- The lines to come after it. -/
theorem builtinRead_rest {name : Text} (hname : name ≠ []) (word : Text) (env : Env)
    {stdin : Stream Byte} (hfits : LineFits name (fileLines (stdin.text Byte.char)).head?) :
    fileLines ((builtinRead block [word, name] env stdin).2.2.text Byte.char) =
      (fileLines (stdin.text Byte.char)).tail := by
  rw [(builtinRead_spec block hname word env stdin).2.1]
  cases hlines : fileLines (stdin.text Byte.char) with
  | nil =>
      rw [(fgets_end block Byte.char hlines).2, fileLines_nil]
      rfl
  | cons l ls =>
      rw [hlines] at hfits
      have hlength := (hfits l rfl).1
      have hsame := (fgets_eq_line_iff block Byte.char (by decide : 0 < bufRoom) hlines).mpr hlength
      exact fileLines_fgets block Byte.char hlines hsame

/-- What is returned and what stays come from the stream. -/
theorem builtinRead_origin {name : Text} (hname : name ≠ []) (word : Text) (env : Env)
    {stdin : Stream Byte} {origin : Origin} (h : ∀ b ∈ stdin.content, b.origin = origin) :
    (∀ b ∈ (builtinRead block [word, name] env stdin).1.taken, b.origin = origin) ∧
      ∀ b ∈ (builtinRead block [word, name] env stdin).2.2.content, b.origin = origin := by
  obtain ⟨htaken, hrest, -⟩ := builtinRead_spec block hname word env stdin
  rw [htaken, hrest]
  have hcontent := content_fgets block Byte.char bufRoom stdin
  exact ⟨fun b hb => h b (hcontent ▸ List.mem_append_left _ hb),
    fun b hb => h b (hcontent ▸ List.mem_append_right _ hb)⟩

end Call

/-! ## A command -/

/-- A `read NAME` with its redirections, and the files that it finds. -/
structure Step where
  name : Text
  named : name ≠ []
  cmd : Cmd
  files : Files

section Command

variable (block : ℕ+)

def Step.run (r : Step) (s : Shell) : Outcome × Shell :=
  runRead block r.files ["read".toList, r.name] r.cmd s

/-- What it should read: the first line of the file of its redirection, or the next of the
`lines` of the shell's own standard input.  With it, the lines that remain. -/
def Step.due (r : Step) (s : Shell) (lines : List Text) : Option Text × List Text :=
  match fileUnder r.files r.cmd s with
  | none => (none, lines)
  | some (.own, _) => (lines.head?, lines.tail)
  | some (.opened _, file) => ((fileLines (file.rest.map Byte.char)).head?, lines)

/-- The command reads the line that is due, from its own file. -/
structure Right (r : Step) (s : Shell) (lines : List Text) : Prop where
  whole : Whole r.name (r.due s lines).1 (r.run block s).1
  source : ∀ b ∈ (r.run block s).1.taken,
    ∃ file, fileUnder r.files r.cmd s = some (b.origin, file)

/-- Nothing is buffered from another file, and the next line of the buffer and the file
fits. -/
def Fits (r : Step) (s : Shell) : Prop :=
  ∀ origin file, fileUnder r.files r.cmd s = some (origin, file) →
    (∀ b ∈ s.buffer, b.origin = origin) ∧
      LineFits r.name (fileLines ((s.buffer ++ file.rest).map Byte.char)).head?

/-- What holds while the `lines` are still to be read: the buffer is of one file. -/
structure Inv (s : Shell) (lines : List Text) : Prop where
  own : ∀ b ∈ s.own.rest, b.origin = .own
  buffered :
    ((∀ b ∈ s.buffer, b.origin = .own) ∧
      fileLines ((s.buffer ++ s.own.rest).map Byte.char) = lines) ∨
    ((∃ m < s.opened, ∀ b ∈ s.buffer, b.origin = .opened m) ∧
      fileLines (s.own.rest.map Byte.char) = lines)

/-- The file is none, the shell's own, or one that has just been opened. -/
theorem fileUnder_cases (files : Files) (cmd : Cmd) (s : Shell) :
    fileUnder files cmd s = none ∨ fileUnder files cmd s = some (.own, s.own) ∨
      ∃ text, fileUnder files cmd s =
        some (.opened s.opened, ⟨bytes (.opened s.opened) text, files.ready⟩) := by
  unfold fileUnder
  cases Foundation.Process.petrushApplyRedirs files.opens cmd {} with
  | none => exact .inl rfl
  | some fds =>
      obtain ⟨stdin, -, -⟩ := fds
      cases stdin with
      | opened file => exact .inr (.inr ⟨files.text file, rfl⟩)
      | given | pipe | null => exact .inr (.inl rfl)

theorem origin_bytes {origin : Origin} {text : Text} : ∀ b ∈ bytes origin text, b.origin = origin := by
  intro b hb
  obtain ⟨c, -, rfl⟩ := List.mem_map.mp hb
  rfl

/-- The buffer is of the shell's own input, or begins with a byte of another file. -/
theorem Inv.own_or_foreign {s : Shell} {lines : List Text} (h : Inv s lines) :
    ((∀ b ∈ s.buffer, b.origin = .own) ∧
      fileLines ((s.buffer ++ s.own.rest).map Byte.char) = lines) ∨
    ∃ c buffer, s.buffer = c :: buffer ∧ c.origin ≠ .own := by
  rcases h.buffered with hown | ⟨⟨m, -, hm⟩, hlines⟩
  · exact .inl hown
  · cases hbuffer : s.buffer with
    | nil => exact .inl ⟨fun b hb => by simp at hb, hlines⟩
    | cons c buffer =>
        refine .inr ⟨c, buffer, rfl, fun hc => ?_⟩
        have hopened := hm c (by rw [hbuffer]; exact List.mem_cons_self)
        rw [hc] at hopened
        contradiction

/-- It is empty, or begins with a byte of a file that is not the next. -/
theorem Inv.empty_or_foreign {s : Shell} {lines : List Text} (h : Inv s lines) :
    (s.buffer = [] ∧ fileLines (s.own.rest.map Byte.char) = lines) ∨
    ∃ c buffer, s.buffer = c :: buffer ∧ c.origin ≠ .opened s.opened := by
  cases hbuffer : s.buffer with
  | nil =>
      refine .inl ⟨rfl, ?_⟩
      rcases h.buffered with ⟨-, hlines⟩ | ⟨-, hlines⟩
      · rwa [hbuffer] at hlines
      · exact hlines
  | cons c buffer =>
      refine .inr ⟨c, buffer, rfl, fun hc => ?_⟩
      have hmem : c ∈ s.buffer := by
        rw [hbuffer]
        exact List.mem_cons_self
      rcases h.buffered with ⟨hown, -⟩ | ⟨⟨m, hlt, hm⟩, -⟩
      · have horigin := hown c hmem
        rw [hc] at horigin
        contradiction
      · have horigin := hm c hmem
        rw [hc, Origin.opened.injEq] at horigin
        omega

theorem run_of_fileUnder {r : Step} {s : Shell} {origin : Origin} {file : Feed Byte}
    (h : fileUnder r.files r.cmd s = some (origin, file)) :
    r.run block s =
      ((builtinRead block ["read".toList, r.name] s.env ⟨s.buffer, file⟩).1,
        leave s origin (builtinRead block ["read".toList, r.name] s.env ⟨s.buffer, file⟩).2.1
          (builtinRead block ["read".toList, r.name] s.env ⟨s.buffer, file⟩).2.2) := by
  rw [Step.run, runRead, h]

/-- A byte of another file is returned first. -/
theorem wrong_of_foreign {r : Step} {s : Shell} {lines : List Text} {origin : Origin}
    {file : Feed Byte} {c : Byte} {buffer : List Byte}
    (h : fileUnder r.files r.cmd s = some (origin, file)) (hbuffer : s.buffer = c :: buffer)
    (hc : c.origin ≠ origin) : ¬ Right block r s lines ∧ ¬ Fits r s := by
  constructor
  · intro hright
    have htaken := (builtinRead_spec block r.named "read".toList s.env ⟨s.buffer, file⟩).1
    have hmem : c ∈ (r.run block s).1.taken := by
      rw [run_of_fileUnder block h, htaken, hbuffer]
      exact mem_fgets_of_buffered block Byte.char 8190 c buffer file
    obtain ⟨file', hfile⟩ := hright.source c hmem
    rw [h] at hfile
    exact hc (Prod.mk.inj (Option.some.inj hfile)).1.symm
  · intro hfits
    exact hc ((hfits origin file h).1 c (by rw [hbuffer]; exact List.mem_cons_self))

/-- Nothing is buffered from another file: the line is right when it fits. -/
theorem right_iff_of_native {r : Step} {s : Shell} {lines : List Text} {origin : Origin}
    {file : Feed Byte} (h : fileUnder r.files r.cmd s = some (origin, file))
    (hnative : ∀ b ∈ s.buffer, b.origin = origin) (hfile : ∀ b ∈ file.rest, b.origin = origin)
    (hdue : (r.due s lines).1 = (fileLines ((s.buffer ++ file.rest).map Byte.char)).head?) :
    Right block r s lines ↔ Fits r s := by
  have hwhole := builtinRead_whole_iff block r.named "read".toList s.env ⟨s.buffer, file⟩
  constructor
  · intro hright origin' file' h'
    obtain ⟨rfl, rfl⟩ := Prod.mk.inj (Option.some.inj (h.symm.trans h'))
    refine ⟨hnative, hwhole.mp ?_⟩
    have hw := hright.whole
    rw [run_of_fileUnder block h, hdue] at hw
    exact hw
  · intro hfits
    have hcontent : ∀ b ∈ (Stream.mk s.buffer file).content, b.origin = origin := by
      intro b hb
      rcases List.mem_append.mp hb with hb | hb
      · exact hnative b hb
      · exact hfile b hb
    constructor
    · rw [run_of_fileUnder block h, hdue]
      exact hwhole.mpr (hfits origin file h).2
    · intro b hb
      rw [run_of_fileUnder block h] at hb
      have horigin := (builtinRead_origin block r.named "read".toList s.env hcontent).1 b hb
      exact ⟨file, by rw [h, horigin]⟩

/-- **A command** reads the line that is due when nothing is buffered from another file,
and the line fits. -/
theorem step_right_iff (r : Step) {s : Shell} {lines : List Text} (hinv : Inv s lines) :
    Right block r s lines ↔ Fits r s := by
  rcases fileUnder_cases r.files r.cmd s with hnone | hown | ⟨text, hopened⟩
  · refine iff_of_true ⟨⟨?_, ?_⟩, fun b hb => ?_⟩ (fun origin file h => by simp [hnone] at h)
    · simp [Step.run, runRead, Step.due, hnone]
    · simp [Step.run, runRead, Step.due, hnone]
    · simp [Step.run, runRead, hnone] at hb
  · rcases hinv.own_or_foreign with ⟨hnative, hlines⟩ | ⟨c, buffer, hbuffer, hc⟩
    · exact right_iff_of_native block hown hnative hinv.own
        (by rw [hlines]; simp [Step.due, hown])
    · have hwrong : ¬ Right block r s lines ∧ _ := wrong_of_foreign block hown hbuffer hc
      exact iff_of_false hwrong.1 hwrong.2
  · rcases hinv.empty_or_foreign with ⟨hempty, hlines⟩ | ⟨c, buffer, hbuffer, hc⟩
    · exact right_iff_of_native block hopened (fun b hb => by simp [hempty] at hb) origin_bytes
        (by simp [Step.due, hopened, hempty])
    · have hwrong : ¬ Right block r s lines ∧ _ := wrong_of_foreign block hopened hbuffer hc
      exact iff_of_false hwrong.1 hwrong.2

/-- What a command leaves, when it fits. -/
theorem Inv.step {r : Step} {s : Shell} {lines : List Text} (hinv : Inv s lines)
    (hfits : Fits r s) : Inv (r.run block s).2 (r.due s lines).2 := by
  rcases fileUnder_cases r.files r.cmd s with hnone | hown | ⟨text, hopened⟩
  · simpa [Step.run, runRead, Step.due, hnone] using hinv
  · obtain ⟨hnative, hfit⟩ := hfits _ _ hown
    rcases hinv.own_or_foreign with ⟨-, hlines⟩ | ⟨c, buffer, hbuffer, hc⟩
    · have hcontent : ∀ b ∈ (Stream.mk s.buffer s.own).content, b.origin = .own := by
        intro b hb
        rcases List.mem_append.mp hb with hb | hb
        · exact hnative b hb
        · exact hinv.own b hb
      have horigin := (builtinRead_origin block r.named "read".toList s.env hcontent).2
      have hfit' : LineFits r.name (fileLines ((Stream.mk s.buffer s.own).text Byte.char)).head? :=
        hfit
      have hrest := builtinRead_rest block r.named "read".toList s.env hfit'
      have hdue : (r.due s lines).2 = lines.tail := by simp [Step.due, hown]
      rw [run_of_fileUnder block hown, hdue]
      refine ⟨fun b hb => horigin b (List.mem_append_right _ hb), .inl ⟨fun b hb => ?_, ?_⟩⟩
      · exact horigin b (List.mem_append_left _ hb)
      · exact hrest.trans (congrArg List.tail hlines)
    · exact absurd (hnative c (by rw [hbuffer]; exact List.mem_cons_self)) hc
  · obtain ⟨hnative, -⟩ := hfits _ _ hopened
    rcases hinv.empty_or_foreign with ⟨hempty, hlines⟩ | ⟨c, buffer, hbuffer, hc⟩
    · have hcontent : ∀ b ∈ (Stream.mk s.buffer
          ⟨bytes (.opened s.opened) text, r.files.ready⟩).content, b.origin = .opened s.opened := by
        rw [hempty]
        exact origin_bytes
      have horigin := (builtinRead_origin block r.named "read".toList s.env hcontent).2
      have hdue : (r.due s lines).2 = lines := by simp [Step.due, hopened]
      rw [run_of_fileUnder block hopened, hdue]
      refine ⟨hinv.own, .inr ⟨⟨s.opened, Nat.lt_succ_self _, fun b hb => ?_⟩, hlines⟩⟩
      exact horigin b (List.mem_append_left _ hb)
    · exact absurd (hnative c (by rw [hbuffer]; exact List.mem_cons_self)) hc

/-! ## A run -/

/-- Every command of a run reads the line that is due. -/
def AllRight : Shell → List Text → List Step → Prop
  | _, _, [] => True
  | s, lines, r :: steps =>
      Right block r s lines ∧ AllRight (r.run block s).2 (r.due s lines).2 steps

/-- Every command of a run fits. -/
def AllFit : Shell → List Step → Prop
  | _, [] => True
  | s, r :: steps => Fits r s ∧ AllFit (r.run block s).2 steps

theorem allRight_iff (steps : List Step) :
    ∀ {s : Shell} {lines : List Text}, Inv s lines →
      (AllRight block s lines steps ↔ AllFit block s steps) := by
  induction steps with
  | nil => exact fun _ => Iff.rfl
  | cons r steps ih =>
      intro s lines hinv
      rw [AllRight, AllFit, step_right_iff block r hinv]
      exact and_congr_right fun hfits => ih (hinv.step block hfits)

/-- A shell that has read nothing of its standard input. -/
def start (text : Text) (ready : List Nat) (env : Env) : Shell :=
  { own := ⟨bytes .own text, ready⟩, env := env }

theorem text_bytes (origin : Origin) (text : Text) :
    (bytes origin text).map Byte.char = text := by
  rw [bytes, List.map_map]
  exact List.map_id text

theorem inv_start (text : Text) (ready : List Nat) (env : Env) :
    Inv (start text ready env) (fileLines text) where
  own := origin_bytes
  buffered := .inl ⟨fun b hb => by simp [start] at hb,
    by rw [start, List.nil_append, text_bytes]⟩

/-- **Reads in sequence** read each its own input when nothing is buffered from another
file before one of them, and their lines fit. -/
theorem reads_iff (text : Text) (ready : List Nat) (env : Env) (steps : List Step) :
    AllRight block (start text ready env) (fileLines text) steps ↔
      AllFit block (start text ready env) steps :=
  allRight_iff block steps (inv_start text ready env)

end Command

/-- `read a < f` with two lines in `f`, then `read b`: the second reads the other line of
`f`. -/
theorem other_line_read :
    ¬ ∀ (text : Text) (env : Env) (steps : List Step),
      AllRight 4096 (start text [] env) (fileLines text) steps := by
  intro h
  let fromFile : Step :=
    { name := ['a']
      named := by decide
      cmd := { redirIn := some ['f'] }
      files := { opens := fun _ => true, contents := fun _ => ['1', '\n', '2', '\n'] } }
  let fromShell : Step :=
    { name := ['b']
      named := by decide
      cmd := {}
      files := { opens := fun _ => true, contents := fun _ => [] } }
  have hright := (h ['3', '\n'] (fun _ => none) [fromFile, fromShell]).2.1.whole.assigned
  revert hright
  decide +kernel

end Petrush.Verified.Reading
