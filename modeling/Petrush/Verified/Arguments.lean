import Petrush.Mid.Argv

/-!
# The argument vector

What the two loops of `expand_cmd_argv` leave is the concatenation of what each word
stands for (`wordResult`), and the list-level model of the expander agrees
(`expandArgs_flatMap`).

The loops move the tails of two arrays in place.  `argv` always has room, since it
keeps a cell for `NULL`; `argv_quoted` has none, and is made smaller before its tail is
moved.  A word that expands to nothing therefore has its tail read from outside, unless
there is no tail.

## Main results

* `splice_ok`, `splice_outside` — one splice, and when it goes outside.
* `expandLoop_spec`, `globLoop_spec` — the loops, by one turn each.
* `expandArgv_iff` — the result, and exactly when every access is inside.
-/

namespace Petrush.Verified.Arguments

open Petrush.Lib.CText
open Petrush.Lib.Cells
open Petrush.Mid.Argv
open Petrush.Mid.Ast
open Petrush.Mid.Expand
open Petrush.Mid.Glob

/-! ## What a word stands for -/

section Spec

variable (w : World) (ctx : Ctx)

/-- The paths an unquoted pattern matches, sorted; any other word is itself. -/
def pathnames (word : Word) : List Word :=
  if word.quoted = .unquoted ∧ patternHasMeta word.text then
    match globWord w.listing word.text with
    | none => [word]
    | some paths => if paths = [word.text] then [word] else paths.map (⟨·, .single⟩)
  else [word]

/-- What a word stands for. -/
def wordResult (word : Word) (fx : Effects) : List Word × Effects :=
  if word.quoted = .single then ([word], fx)
  else if word.text = "$@".toList ∨ word.text = "$*".toList ∧ word.quoted = .unquoted then
    (ctx.args.map (⟨·, .single⟩), fx.record .positional)
  else if word.text = "$*".toList then
    ([⟨positionalJoin ctx, word.quoted⟩], fx.record .positional)
  else
    let (text, fx) := expandWord w ctx word.text fx
    (pathnames w ⟨text, word.quoted⟩, fx)

/-- What each word of a list stands for. -/
def wordResults : List Word → Effects → List (List Word) × Effects
  | [], fx => ([], fx)
  | word :: words, fx =>
      let (front, fx) := wordResult w ctx word fx
      let (rest, fx) := wordResults words fx
      (front :: rest, fx)

theorem globArg_eq_pathnames (word : Word) : globArg w word = pathnames w word := by
  by_cases hq : word.quoted = .unquoted
  · by_cases hm : patternHasMeta word.text = true
    · rw [globArg, if_neg (by simp [hq, hm])]
      exact (if_pos ⟨hq, hm⟩).symm
    · rw [globArg, pathnames, if_pos (Or.inr hm), if_neg (fun h => hm h.2)]
  · rw [globArg, pathnames, if_pos (Or.inl hq), if_neg (fun h => hq h.1)]

theorem globArg_quoted {word : Word} (h : word.quoted ≠ .unquoted) : globArg w word = [word] := by
  rw [globArg, if_pos (Or.inl h)]

theorem flatMap_globArg_literal (texts : List Text) :
    (texts.map fun t => (⟨t, .single⟩ : Word)).flatMap (globArg w) =
      texts.map (⟨·, .single⟩) := by
  induction texts with
  | nil => rfl
  | cons t texts ih =>
      have hquoted : (⟨t, .single⟩ : Word).quoted ≠ .unquoted := Quoting.noConfusion
      rw [List.map_cons, List.flatMap_cons, ih, globArg_quoted w hquoted]
      rfl

theorem flatMap_globArg_quoted {word : Word} (h : word.quoted ≠ .unquoted) :
    [word].flatMap (globArg w) = [word] := by
  rw [List.flatMap_singleton, globArg_quoted w h]

/-- The two loops on one word. -/
theorem expandArg_flatMap (word : Word) (fx : Effects) :
    ((expandArg w ctx word fx).1.flatMap (globArg w), (expandArg w ctx word fx).2) =
      wordResult w ctx word fx := by
  by_cases hsingle : word.quoted = .single
  · have hquoted : word.quoted ≠ .unquoted := by
      rw [hsingle]
      exact Quoting.noConfusion
    rw [expandArg, wordResult, if_pos hsingle, if_pos hsingle, flatMap_globArg_quoted w hquoted]
  · by_cases hjoin : word.text = "$*".toList ∧ word.quoted ≠ .unquoted
    · have hnot : ¬ (word.text = "$@".toList ∨ word.text = "$*".toList ∧
          word.quoted = .unquoted) := by
        rintro (hat | hstar)
        · rw [hjoin.1] at hat
          exact absurd hat (by decide)
        · exact hjoin.2 hstar.2
      have hjoined : (⟨positionalJoin ctx, word.quoted⟩ : Word).quoted ≠ .unquoted := hjoin.2
      rw [expandArg, wordResult, if_neg hsingle, if_neg hsingle, if_pos hjoin, if_neg hnot,
        if_pos hjoin.1]
      show ([_].flatMap (globArg w), _) = _
      rw [flatMap_globArg_quoted w hjoined]
    · by_cases hall : word.text = "$@".toList ∨ word.text = "$*".toList
      · have hspliced : word.text = "$@".toList ∨ word.text = "$*".toList ∧
            word.quoted = .unquoted := by
          rcases hall with hat | hstar
          · exact Or.inl hat
          · exact Or.inr ⟨hstar, not_not.mp fun hq => hjoin ⟨hstar, hq⟩⟩
        rw [expandArg, wordResult, if_neg hsingle, if_neg hsingle, if_neg hjoin, if_pos hall,
          if_pos hspliced, flatMap_globArg_literal]
      · have hnot : ¬ (word.text = "$@".toList ∨ word.text = "$*".toList ∧
            word.quoted = .unquoted) := fun h => hall (h.imp_right And.left)
        rw [expandArg, wordResult, if_neg hsingle, if_neg hsingle, if_neg hjoin, if_neg hall,
          if_neg hnot, if_neg (fun h => hall (Or.inr h))]
        show ([_].flatMap (globArg w), _) = _
        rw [List.flatMap_singleton, globArg_eq_pathnames]

/-- **The list-level expander concatenates what the words stand for.** -/
theorem expandArgs_flatMap (words : List Word) : ∀ fx : Effects,
    ((expandArgs w ctx words fx).1.flatMap (globArg w), (expandArgs w ctx words fx).2) =
      ((wordResults w ctx words fx).1.flatten, (wordResults w ctx words fx).2) := by
  induction words with
  | nil =>
      intro fx
      rfl
  | cons word words ih =>
      intro fx
      have hword := expandArg_flatMap w ctx word fx
      have hrest := ih (expandArg w ctx word fx).2
      rw [expandArgs, wordResults, ← hword]
      simp only [List.flatMap_append, List.flatten_cons]
      rw [Prod.mk.injEq] at hrest ⊢
      exact ⟨congrArg _ hrest.1, hrest.2⟩

end Spec

/-! ## One splice -/

/-- The cells of `argv` for some words. -/
def texts (words : List Word) : List (Option Text) := words.map fun word => some word.text

/-- Those of `argv_quoted`. -/
def flags (words : List Word) : List Quoting := words.map Word.quoted

/-- Words a splice puts in. -/
def literals (news : List Text) : List Word := news.map (⟨·, .single⟩)

@[simp] theorem length_texts (words : List Word) : (texts words).length = words.length := by
  simp [texts]

@[simp] theorem length_flags (words : List Word) : (flags words).length = words.length := by
  simp [flags]

@[simp] theorem length_literals (news : List Text) : (literals news).length = news.length := by
  simp [literals]

@[simp] theorem texts_append (words more : List Word) :
    texts (words ++ more) = texts words ++ texts more := by
  simp [texts]

@[simp] theorem flags_append (words more : List Word) :
    flags (words ++ more) = flags words ++ flags more := by
  simp [flags]

@[simp] theorem texts_cons (word : Word) (words : List Word) :
    texts (word :: words) = some word.text :: texts words := rfl

@[simp] theorem flags_cons (word : Word) (words : List Word) :
    flags (word :: words) = word.quoted :: flags words := rfl

theorem texts_literals (news : List Text) : texts (literals news) = news.map some := by
  simp [texts, literals, Function.comp_def]

theorem flags_literals (news : List Text) :
    flags (literals news) = news.map fun _ => Quoting.single := by
  simp [flags, literals, Function.comp_def]

/-- The arrays hold the words, with `NULL` behind them; there may be more cells. -/
structure Layout (m : Args) (words : List Word) : Prop where
  argc : m.argc = words.length
  argv : ∃ spare, m.argv = texts words ++ none :: spare
  argvQuoted : ∃ spare, m.argvQuoted = flags words ++ spare

section Splice

variable {α : Type}

theorem realloc_append (junk : α) (size : Nat) (kept spare : List α) (h : kept.length ≤ size) :
    ∃ rest, realloc junk size (kept ++ spare) = kept ++ rest ∧
      rest.length = size - kept.length := by
  refine ⟨spare.take (size - kept.length) ++
    List.replicate (size - (kept ++ spare).length) junk, ?_, ?_⟩
  · rw [realloc, List.take_append, List.take_of_length_le h, List.append_assoc]
  · simp only [List.length_append, List.length_take, List.length_replicate]
    omega

/-- An array with room for the words before and after takes the splice. -/
theorem spliceCells_ok (junk : α) (size : Nat) (before after spare news : List α) (a : α)
    (hold : before.length + 1 + after.length ≤ size)
    (hnew : before.length + news.length + after.length ≤ size) :
    ∃ rest, spliceCells junk size (before.length + 1 + after.length) before.length
        (before ++ a :: after ++ spare) news = .ok (before ++ news ++ after ++ rest) ∧
      rest.length = size - (before.length + news.length + after.length) := by
  have hkept : (before ++ a :: after).length = before.length + 1 + after.length := by
    simp only [List.length_append, List.length_cons]
    omega
  obtain ⟨room, hroom, hlen⟩ := realloc_append junk size (before ++ a :: after) spare
    (by rw [hkept]; exact hold)
  rw [hkept] at hlen
  have hparts : before ++ a :: after ++ room = before ++ [a] ++ after ++ room := by simp
  have hcount : before.length + 1 + after.length - before.length - 1 = after.length := by omega
  unfold spliceCells
  rw [hroom, hparts, hcount]
  by_cases hone : news.length = 1
  · refine ⟨room, ?_, by omega⟩
    simp only [hone, if_true]
    show writes (before ++ [a] ++ after ++ room) before.length news = _
    rw [List.append_assoc (before ++ [a]), writes_append (after ++ room) news [a] before hone.symm]
    simp only [List.append_assoc]
  · obtain ⟨hole, rest, hhole, hrest, hmove⟩ :=
      memmove_append before [a] after room news.length (by simp only [List.length_singleton]; omega)
    refine ⟨rest, ?_, ?_⟩
    · simp only [hone, if_false]
      rw [List.length_singleton] at hmove
      rw [hmove]
      show writes (before ++ hole ++ after ++ rest) before.length news = _
      rw [List.append_assoc (before ++ hole), writes_append (after ++ rest) news hole before hhole]
      simp only [List.append_assoc]
    · rw [hrest, List.length_singleton]
      omega

end Splice

section Splices

variable (junk : Option Text) (junkFlag : Quoting)

theorem pred_length (done todo : List Word) (word : Word) (news : List Text) :
    (done ++ word :: todo).length - 1 + news.length = done.length + news.length + todo.length := by
  simp only [List.length_append, List.length_cons]
  omega

/-- `argv` always has room for a splice. -/
theorem splice_argv (done todo : List Word) (word : Word) (news : List Text)
    (spare : List (Option Text)) :
    ∃ last, spliceCells junk (done.length + news.length + todo.length + 1)
        (done ++ word :: todo).length done.length
        (texts (done ++ word :: todo) ++ none :: spare) (news.map some) =
      .ok (texts (done ++ literals news ++ todo) ++ [last]) := by
  obtain ⟨rest, hsplice, hrest⟩ := spliceCells_ok junk
    (done.length + news.length + todo.length + 1) (texts done) (texts todo) (none :: spare)
    (news.map some) (some word.text)
    (by simp only [length_texts]; omega) (by simp only [length_texts, List.length_map]; omega)
  simp only [length_texts, List.length_map] at hsplice hrest
  obtain ⟨last, rfl⟩ := List.length_eq_one_iff.mp (show rest.length = 1 by omega)
  refine ⟨last, ?_⟩
  have hlen : (done ++ word :: todo).length = done.length + 1 + todo.length := by
    simp only [List.length_append, List.length_cons]
    omega
  rw [hlen, texts_append, texts_cons, texts_append, texts_append, texts_literals]
  exact hsplice

/-- `argv_quoted` has room when the splice does not make it smaller. -/
theorem splice_argvQuoted (done todo : List Word) (word : Word) (news : List Text)
    (spare : List Quoting) (hnews : news ≠ []) :
    ∃ rest, spliceCells junkFlag (max (done.length + news.length + todo.length) 1)
        (done ++ word :: todo).length done.length
        (flags (done ++ word :: todo) ++ spare) (news.map fun _ => .single) =
      .ok (flags (done ++ literals news ++ todo) ++ rest) := by
  have hpos : 0 < news.length := List.length_pos_iff.mpr hnews
  obtain ⟨rest, hsplice, -⟩ := spliceCells_ok junkFlag
    (max (done.length + news.length + todo.length) 1) (flags done) (flags todo) spare
    (news.map fun _ => .single) word.quoted
    (by simp only [length_flags]; omega) (by simp only [length_flags, List.length_map]; omega)
  simp only [length_flags] at hsplice
  refine ⟨rest, ?_⟩
  have hlen : (done ++ word :: todo).length = done.length + 1 + todo.length := by
    simp only [List.length_append, List.length_cons]
    omega
  rw [hlen, flags_append, flags_cons, flags_append, flags_append, flags_literals]
  exact hsplice

/-- It has room when there is no tail to move. -/
theorem splice_argvQuoted_last (done : List Word) (word : Word) (spare : List Quoting) :
    ∃ rest, spliceCells junkFlag (max done.length 1) (done ++ [word]).length done.length
        (flags (done ++ [word]) ++ spare) [] =
      .ok (flags done ++ rest) := by
  have hcount : (done ++ [word]).length - done.length - 1 = 0 := by simp
  obtain ⟨rest, hrest, -⟩ := realloc_append junkFlag (max done.length 1) (flags done)
    (word.quoted :: spare) (by simp only [length_flags]; omega)
  refine ⟨rest, ?_⟩
  have hparts : flags (done ++ [word]) ++ spare = flags done ++ word.quoted :: spare := by
    rw [flags_append, flags_cons, List.append_assoc]
    rfl
  unfold spliceCells
  rw [hcount, hparts, hrest]
  rfl

/-- It has none when a tail has to move down. -/
theorem splice_argvQuoted_outside (done todo : List Word) (word : Word) (spare : List Quoting)
    (htodo : todo ≠ []) :
    spliceCells junkFlag (max (done.length + todo.length) 1) (done ++ word :: todo).length
      done.length (flags (done ++ word :: todo) ++ spare) [] = .error .outside := by
  have hpos : 0 < todo.length := List.length_pos_iff.mpr htodo
  have hcount : (done ++ word :: todo).length - done.length - 1 = todo.length := by
    simp only [List.length_append, List.length_cons]
    omega
  have hlen := length_realloc junkFlag (max (done.length + todo.length) 1)
    (flags (done ++ word :: todo) ++ spare)
  unfold spliceCells
  rw [hcount]
  simp only [List.length_nil, Nat.zero_ne_one, if_false, Nat.add_zero]
  rw [memmove, if_neg (Nat.ne_of_gt hpos), if_neg]
  · rfl
  · rw [hlen]
    omega

/-- **A splice puts the new words in the place of one**, unless it would make an array
smaller that still has a tail to move. -/
theorem splice_ok {m : Args} {done todo : List Word} {word : Word} {news : List Text}
    (hm : Layout m (done ++ word :: todo)) (h : news ≠ [] ∨ todo = []) :
    ∃ m', splice junk junkFlag m done.length news = .ok m' ∧
      Layout m' (done ++ literals news ++ todo) := by
  obtain ⟨spare, hargv⟩ := hm.argv
  obtain ⟨spareFlags, hquoted⟩ := hm.argvQuoted
  obtain ⟨last, hwords⟩ := splice_argv junk done todo word news spare
  have hflags : ∃ rest, spliceCells junkFlag (max (done.length + news.length + todo.length) 1)
      (done ++ word :: todo).length done.length (flags (done ++ word :: todo) ++ spareFlags)
      (news.map fun _ => .single) = .ok (flags (done ++ literals news ++ todo) ++ rest) := by
    by_cases hnews : news = []
    · obtain rfl : todo = [] := h.resolve_left fun hne => hne hnews
      subst hnews
      obtain ⟨rest, hrest⟩ := splice_argvQuoted_last junkFlag done word spareFlags
      refine ⟨rest, ?_⟩
      rw [show literals [] = [] from rfl, List.append_nil, List.append_nil]
      exact hrest
    · exact splice_argvQuoted junkFlag done todo word news spareFlags hnews
  obtain ⟨rest, hflags⟩ := hflags
  have hlen : (texts (done ++ literals news ++ todo)).length =
      done.length + news.length + todo.length := by
    simp only [length_texts, List.length_append, length_literals]
  have hnull := write_append (texts (done ++ literals news ++ todo)) [] last none
  rw [hlen] at hnull
  refine ⟨⟨texts (done ++ literals news ++ todo) ++ [none],
    flags (done ++ literals news ++ todo) ++ rest,
    done.length + news.length + todo.length⟩, ?_, ?_, ⟨[], rfl⟩, ⟨rest, rfl⟩⟩
  · unfold splice
    rw [hm.argc, hargv, hquoted, pred_length]
    simp only [hwords, hflags]
    show (write (_ ++ [last]) _ none >>= _) = _
    rw [hnull]
    rfl
  · show done.length + news.length + todo.length = _
    rw [← hlen, length_texts]

/-- Otherwise it reads outside. -/
theorem splice_outside {m : Args} {done todo : List Word} {word : Word}
    (hm : Layout m (done ++ word :: todo)) (h : todo ≠ []) :
    splice junk junkFlag m done.length [] = .error .outside := by
  obtain ⟨spare, hargv⟩ := hm.argv
  obtain ⟨spareFlags, hquoted⟩ := hm.argvQuoted
  obtain ⟨last, hwords⟩ := splice_argv junk done todo word [] spare
  have hflags := splice_argvQuoted_outside junkFlag done todo word spareFlags h
  unfold splice
  rw [hm.argc, hargv, hquoted, pred_length]
  simp only [List.map_nil] at hwords ⊢
  rw [hwords]
  show (spliceCells junkFlag (max (done.length + todo.length) 1) _ _ _ _ >>= _) = _
  rw [hflags]
  rfl

end Splices

/-! ## One turn -/

section Turns

variable (w : World) (ctx : Ctx) (junk : Option Text) (junkFlag : Quoting)

theorem Layout.read {m : Args} {done todo : List Word} {word : Word}
    (hm : Layout m (done ++ word :: todo)) :
    Lib.Cells.read m.argv done.length = .ok (some word.text) ∧
      Lib.Cells.read m.argvQuoted done.length = .ok word.quoted := by
  obtain ⟨spare, hargv⟩ := hm.argv
  obtain ⟨spareFlags, hquoted⟩ := hm.argvQuoted
  constructor
  · rw [hargv, texts_append, texts_cons, List.append_assoc, ← length_texts done]
    exact read_append _ _ _
  · rw [hquoted, flags_append, flags_cons, List.append_assoc, ← length_flags done]
    exact read_append _ _ _

/-- A word is overwritten in its place. -/
theorem Layout.write {m : Args} {done todo : List Word} {word : Word} (text : Text)
    (hm : Layout m (done ++ word :: todo)) :
    ∃ cells, Lib.Cells.write m.argv done.length (some text) = .ok cells ∧
      Layout { m with argv := cells } (done ++ ⟨text, word.quoted⟩ :: todo) := by
  obtain ⟨spare, hargv⟩ := hm.argv
  refine ⟨texts (done ++ ⟨text, word.quoted⟩ :: todo) ++ none :: spare, ?_, ?_, ⟨spare, rfl⟩, ?_⟩
  · rw [hargv, texts_append, texts_cons, texts_append, texts_cons, List.append_assoc,
      List.append_assoc, ← length_texts done]
    exact write_append _ _ _ _
  · show m.argc = _
    rw [hm.argc]
    simp
  · obtain ⟨spareFlags, hquoted⟩ := hm.argvQuoted
    exact ⟨spareFlags, by rw [hquoted, flags_append, flags_append]; rfl⟩

/-- The words that become the positionals. -/
def IsSpliced (word : Word) : Prop :=
  word.quoted ≠ .single ∧
    (word.text = "$@".toList ∨ word.text = "$*".toList ∧ word.quoted = .unquoted)

instance (word : Word) : Decidable (IsSpliced word) := by
  unfold IsSpliced
  infer_instance

/-- What the first loop makes of a spliced word. -/
theorem expandArg_spliced {word : Word} (h : IsSpliced word) (fx : Effects) :
    expandArg w ctx word fx = (literals ctx.args, fx.record .positional) := by
  have hjoin : ¬ (word.text = "$*".toList ∧ word.quoted ≠ .unquoted) := by
    rintro ⟨hstar, hq⟩
    rcases h.2 with hat | hunq
    · rw [hstar] at hat
      exact absurd hat (by decide)
    · exact hq hunq.2
  rw [expandArg, if_neg h.1, if_neg hjoin, if_pos (h.2.imp_right And.left)]
  rfl

/-- One turn of the first loop on a spliced word. -/
theorem expandTurn_spliced {m : Args} {done todo : List Word} {word : Word} (h : IsSpliced word)
    (hm : Layout m (done ++ word :: todo)) (fx : Effects) :
    expandTurn w ctx junk junkFlag m done.length fx =
      (splice junk junkFlag m done.length ctx.args >>= fun m =>
        pure (m, done.length + ctx.args.length, fx.record .positional)) := by
  have hjoin : ¬ (word.text = "$*".toList ∧ word.quoted ≠ .unquoted) := by
    rintro ⟨hstar, hq⟩
    rcases h.2 with hat | hunq
    · rw [hstar] at hat
      exact absurd hat (by decide)
    · exact hq hunq.2
  unfold expandTurn
  rw [hm.read.1]
  show (Lib.Cells.read m.argvQuoted done.length >>= _) = _
  rw [hm.read.2]
  show (if word.quoted = .single then _ else _) = _
  rw [if_neg h.1, if_neg hjoin, if_pos (h.2.imp_right And.left)]

/-- On any other word it leaves one word. -/
theorem expandTurn_plain {m : Args} {done todo : List Word} {word : Word} (h : ¬ IsSpliced word)
    (hm : Layout m (done ++ word :: todo)) (fx : Effects) :
    ∃ m' word', expandTurn w ctx junk junkFlag m done.length fx =
        .ok (m', done.length + 1, (expandArg w ctx word fx).2) ∧
      (expandArg w ctx word fx).1 = [word'] ∧ Layout m' (done ++ word' :: todo) := by
  unfold expandTurn
  rw [hm.read.1]
  show ∃ m' word', (Lib.Cells.read m.argvQuoted done.length >>= _) = _ ∧ _
  rw [hm.read.2]
  show ∃ m' word', (if word.quoted = .single then _ else _) = _ ∧ _
  by_cases hsingle : word.quoted = .single
  · refine ⟨m, word, ?_, ?_, hm⟩
    · rw [if_pos hsingle, expandArg, if_pos hsingle]
      rfl
    · rw [expandArg, if_pos hsingle]
  · by_cases hjoin : word.text = "$*".toList ∧ word.quoted ≠ .unquoted
    · obtain ⟨cells, hwrite, hlayout⟩ := hm.write (positionalJoin ctx)
      refine ⟨_, _, ?_, ?_, hlayout⟩
      · rw [if_neg hsingle, if_pos hjoin, hwrite, expandArg, if_neg hsingle, if_pos hjoin]
        rfl
      · rw [expandArg, if_neg hsingle, if_pos hjoin]
    · have hall : ¬ (word.text = "$@".toList ∨ word.text = "$*".toList) := by
        rintro (hat | hstar)
        · exact h ⟨hsingle, Or.inl hat⟩
        · exact h ⟨hsingle, Or.inr ⟨hstar, not_not.mp fun hq => hjoin ⟨hstar, hq⟩⟩⟩
      obtain ⟨cells, hwrite, hlayout⟩ := hm.write (expandWord w ctx word.text fx).1
      refine ⟨_, _, ?_, ?_, hlayout⟩
      · rw [if_neg hsingle, if_neg hjoin, if_neg hall, expandArg, if_neg hsingle, if_neg hjoin,
          if_neg hall]
        show (Lib.Cells.write m.argv done.length (some (expandWord w ctx word.text fx).1) >>= _) = _
        rw [hwrite]
        rfl
      · rw [expandArg, if_neg hsingle, if_neg hjoin, if_neg hall]

/-! ## The loops -/

/-- Every access of the first loop is inside: no word that has words behind it expands to
nothing. -/
def Inside (words : List Word) : Prop := ctx.args ≠ [] ∨ ∀ word ∈ words.dropLast, ¬ IsSpliced word

theorem expandLoop_step (n : Nat) (m m' : Args) (i i' : Nat) (fx fx' : Effects)
    (hi : i < m.argc) (hturn : expandTurn w ctx junk junkFlag m i fx = .ok (m', i', fx')) :
    expandLoop w ctx junk junkFlag (n + 1) m i fx = expandLoop w ctx junk junkFlag n m' i' fx' := by
  rw [expandLoop, if_pos hi]
  show (expandTurn w ctx junk junkFlag m i fx >>= _) = _
  rw [hturn]
  rfl

theorem expandLoop_end (n : Nat) (m : Args) (i : Nat) (fx : Effects) (hi : ¬ i < m.argc) :
    expandLoop w ctx junk junkFlag n m i fx = .ok (m, fx) := by
  cases n with
  | zero =>
      rw [expandLoop, if_neg hi]
      rfl
  | succ n =>
      rw [expandLoop, if_neg hi]
      rfl

/-- **The first loop expands every word**, when its accesses are inside. -/
theorem expandLoop_spec : ∀ (todo done : List Word) (m : Args) (fx : Effects),
    Layout m (done ++ todo) → Inside ctx todo →
    ∃ m', expandLoop w ctx junk junkFlag todo.length m done.length fx =
        .ok (m', (expandArgs w ctx todo fx).2) ∧
      Layout m' (done ++ (expandArgs w ctx todo fx).1) := by
  intro todo
  induction todo with
  | nil =>
      intro done m fx hm _
      have hend : ¬ done.length < m.argc := by
        rw [hm.argc, List.append_nil]
        exact Nat.lt_irrefl _
      exact ⟨m, expandLoop_end w ctx junk junkFlag _ _ _ _ hend, hm⟩
  | cons word todo ih =>
      intro done m fx hm hinside
      have hi : done.length < m.argc := by
        rw [hm.argc]
        simp
      have htail : Inside ctx todo := by
        refine hinside.imp_right fun h x hx => h x ?_
        cases todo with
        | nil => contradiction
        | cons y todo =>
            rw [List.dropLast_cons_cons]
            exact List.mem_cons_of_mem _ hx
      by_cases hspliced : IsSpliced word
      · have hroom : ctx.args ≠ [] ∨ todo = [] := by
          refine hinside.imp_right fun h => ?_
          by_contra hne
          apply h word _ hspliced
          rw [List.dropLast_cons_of_ne_nil hne]
          exact List.mem_cons_self
        obtain ⟨m₁, hsplice, hlayout⟩ := splice_ok junk junkFlag hm hroom
        have hturn : expandTurn w ctx junk junkFlag m done.length fx =
            .ok (m₁, (done ++ literals ctx.args).length, fx.record .positional) := by
          rw [expandTurn_spliced w ctx junk junkFlag hspliced hm, hsplice, List.length_append,
            length_literals]
          rfl
        obtain ⟨m', hrun, hm'⟩ := ih (done ++ literals ctx.args) m₁ (fx.record .positional) hlayout
          htail
        refine ⟨m', ?_, ?_⟩
        · rw [List.length_cons, expandLoop_step w ctx junk junkFlag _ _ _ _ _ _ _ hi hturn, hrun,
            expandArgs, expandArg_spliced w ctx hspliced]
        · rw [expandArgs, expandArg_spliced w ctx hspliced]
          show Layout m' (done ++ (literals ctx.args ++ _))
          rw [← List.append_assoc]
          exact hm'
      · obtain ⟨m₁, word', hturn, hword, hlayout⟩ :=
          expandTurn_plain w ctx junk junkFlag hspliced hm fx
        have hparts : done ++ word' :: todo = done ++ [word'] ++ todo := by simp
        rw [hparts] at hlayout
        have hnext : done.length + 1 = (done ++ [word']).length := by simp
        rw [hnext] at hturn
        obtain ⟨m', hrun, hm'⟩ := ih (done ++ [word']) m₁ (expandArg w ctx word fx).2 hlayout htail
        refine ⟨m', ?_, ?_⟩
        · rw [List.length_cons, expandLoop_step w ctx junk junkFlag _ _ _ _ _ _ _ hi hturn, hrun,
            expandArgs]
        · rw [expandArgs]
          show Layout m' (done ++ ((expandArg w ctx word fx).1 ++ _))
          rw [hword, ← List.append_assoc]
          exact hm'

/-- Otherwise it reads outside. -/
theorem expandLoop_outside (hargs : ctx.args = []) : ∀ (todo done : List Word) (m : Args)
    (fx : Effects), Layout m (done ++ todo) → ¬ Inside ctx todo →
    expandLoop w ctx junk junkFlag todo.length m done.length fx = .error .outside := by
  intro todo
  induction todo with
  | nil =>
      intro done m fx hm hinside
      exact absurd (Or.inr fun _ h => nomatch h) hinside
  | cons word todo ih =>
      intro done m fx hm hinside
      have hi : done.length < m.argc := by
        rw [hm.argc]
        simp
      have hne : todo ≠ [] := by
        rintro rfl
        exact hinside (Or.inr fun _ h => nomatch h)
      by_cases hspliced : IsSpliced word
      · rw [List.length_cons, expandLoop, if_pos hi]
        show (expandTurn w ctx junk junkFlag m done.length fx >>= _) = _
        rw [expandTurn_spliced w ctx junk junkFlag hspliced hm, hargs,
          splice_outside junk junkFlag hm hne]
        rfl
      · obtain ⟨m₁, word', hturn, -, hlayout⟩ :=
          expandTurn_plain w ctx junk junkFlag hspliced hm fx
        have hparts : done ++ word' :: todo = done ++ [word'] ++ todo := by simp
        rw [hparts] at hlayout
        have hnext : done.length + 1 = (done ++ [word']).length := by simp
        rw [hnext] at hturn
        rw [List.length_cons, expandLoop_step w ctx junk junkFlag _ _ _ _ _ _ _ hi hturn]
        apply ih _ _ _ hlayout
        intro htail
        apply hinside
        refine htail.imp_right fun h x hx => ?_
        rw [List.dropLast_cons_of_ne_nil hne] at hx
        rcases List.mem_cons.mp hx with rfl | hx
        · exact hspliced
        · exact h x hx

/-- A directory has the pattern itself, or paths it found. -/
theorem globWord_ne_nil {listing : Listing} {pattern : Text} {paths : List Text}
    (h : globWord listing pattern = some paths) : paths ≠ [] := by
  rintro rfl
  have hself : some [pattern] ≠ some [] := by simp
  unfold globWord at h
  split at h
  · exact hself h
  · split at h
    · exact hself h
    · split at h
      · exact hself h
      · split at h
        · exact hself h
        · simp only at h
          split_ifs at h with hlimit hfound
          · exact hself h
          · have hlen := congrArg List.length (Option.some.inj h)
            rw [List.length_insertionSort] at hlen
            exact hfound (List.length_eq_zero_iff.mp hlen)

/-- One turn of the second loop. -/
theorem globTurn_spec {m : Args} {done todo : List Word} {word : Word}
    (hm : Layout m (done ++ word :: todo)) :
    ∃ m', globTurn w junk junkFlag m done.length =
        .ok (m', (done ++ globArg w word).length) ∧
      Layout m' (done ++ globArg w word ++ todo) := by
  have hkeep : ∀ g : List Word, g = [word] →
      Except.ok (m, done.length + 1) = (Except.ok (m, (done ++ g).length) : Except Fault _) ∧
        Layout m (done ++ g ++ todo) := by
    rintro g rfl
    refine ⟨by simp, ?_⟩
    rw [List.append_assoc]
    exact hm
  unfold globTurn
  rw [hm.read.1]
  show ∃ m', (Lib.Cells.read m.argvQuoted done.length >>= _) = _ ∧ _
  rw [hm.read.2]
  show ∃ m', (if word.quoted ≠ .unquoted ∨ ¬ patternHasMeta word.text then _ else _) = _ ∧ _
  by_cases hplain : word.quoted ≠ .unquoted ∨ ¬ patternHasMeta word.text
  · rw [if_pos hplain]
    exact ⟨m, hkeep _ (by rw [globArg, if_pos hplain])⟩
  · rw [if_neg hplain]
    cases hglob : globWord w.listing word.text with
    | none => exact ⟨m, hkeep _ (by rw [globArg, if_neg hplain, hglob])⟩
    | some paths =>
        by_cases hself : paths = [word.text]
        · refine ⟨m, ?_⟩
          simp only [if_pos hself]
          exact hkeep _ (by rw [globArg, if_neg hplain, hglob]; exact if_pos hself)
        · have hg : globArg w word = literals paths := by
            rw [globArg, if_neg hplain, hglob]
            exact if_neg hself
          obtain ⟨m', hsplice, hlayout⟩ :=
            splice_ok junk junkFlag hm (Or.inl (globWord_ne_nil hglob))
          refine ⟨m', ?_, by rw [hg]; exact hlayout⟩
          simp only [if_neg hself, hsplice]
          rw [hg, List.length_append, length_literals]
          rfl

theorem globLoop_end (n : Nat) (m : Args) (i : Nat) (hi : ¬ i < m.argc) :
    globLoop w junk junkFlag n m i = .ok m := by
  cases n with
  | zero =>
      rw [globLoop, if_neg hi]
      rfl
  | succ n =>
      rw [globLoop, if_neg hi]
      rfl

/-- **The second loop replaces the patterns.** -/
theorem globLoop_spec : ∀ (todo done : List Word) (m : Args), Layout m (done ++ todo) →
    ∃ m', globLoop w junk junkFlag todo.length m done.length = .ok m' ∧
      Layout m' (done ++ todo.flatMap (globArg w)) := by
  intro todo
  induction todo with
  | nil =>
      intro done m hm
      have hend : ¬ done.length < m.argc := by
        rw [hm.argc, List.append_nil]
        exact Nat.lt_irrefl _
      exact ⟨m, globLoop_end w junk junkFlag _ _ _ hend, hm⟩
  | cons word todo ih =>
      intro done m hm
      have hi : done.length < m.argc := by
        rw [hm.argc]
        simp
      obtain ⟨m₁, hturn, hlayout⟩ := globTurn_spec w junk junkFlag hm
      obtain ⟨m', hrun, hm'⟩ := ih (done ++ globArg w word) m₁ hlayout
      refine ⟨m', ?_, ?_⟩
      · rw [List.length_cons, globLoop, if_pos hi]
        show (globTurn w junk junkFlag m done.length >>= _) = _
        rw [hturn]
        exact hrun
      · rw [List.flatMap_cons, ← List.append_assoc]
        exact hm'

/-- **The argument vector and its exact condition.**  For every command and whatever
else its arrays hold: both loops stay inside their arrays, and leave
in order what each word stands for, if and only if no word that has words behind it
expands to nothing. -/
theorem expandArgv_iff (m : Args) (words : List Word) (fx : Effects)
    (hm : Layout m words) :
    (∃ m', expandArgv w ctx junk junkFlag m fx = .ok (m', (wordResults w ctx words fx).2) ∧
      Layout m' (wordResults w ctx words fx).1.flatten) ↔ Inside ctx words := by
  have hspec := Prod.mk.inj (expandArgs_flatMap w ctx words fx)
  have hstart : expandLoop w ctx junk junkFlag m.argc m 0 fx =
      expandLoop w ctx junk junkFlag words.length m ([] : List Word).length fx := by
    rw [hm.argc]
    rfl
  constructor
  · rintro ⟨m', hrun, -⟩
    by_contra hinside
    have hargs : ctx.args = [] := not_not.mp fun h => hinside (Or.inl h)
    have hfault := expandLoop_outside w ctx junk junkFlag hargs words [] m fx hm hinside
    rw [expandArgv, hstart, hfault] at hrun
    contradiction
  · intro hinside
    obtain ⟨m₁, hfirst, hlayout⟩ := expandLoop_spec w ctx junk junkFlag words [] m fx hm hinside
    rw [List.nil_append] at hlayout
    obtain ⟨m', hsecond, hm'⟩ := globLoop_spec w junk junkFlag (expandArgs w ctx words fx).1 [] m₁
      hlayout
    rw [List.nil_append, hspec.1] at hm'
    refine ⟨m', ?_, hm'⟩
    rw [expandArgv, hstart, hfirst, ← hspec.2]
    show (globLoop w junk junkFlag m₁.argc m₁ 0 >>= _) = _
    rw [hlayout.argc]
    show (globLoop w junk junkFlag _ m₁ ([] : List Word).length >>= _) = _
    rw [hsecond]
    rfl

end Turns

/-- A directory that cannot be read, and a substitution that prints nothing. -/
def bareWorld : World := ⟨fun _ _ => [], fun _ => none, fun _ => []⟩

/-- `echo "$@"`. -/
def echoAll : List Word := [⟨"echo".toList, .unquoted⟩, ⟨"$@".toList, .double⟩]

/-- Two positionals. -/
def twoArgs : Ctx := { env := fun _ => none, args := ["a".toList, "b c".toList] }

theorem expandArgv_iff_echoAll :
    (∃ m', expandArgv bareWorld twoArgs none .unquoted
        ⟨texts echoAll ++ [none], flags echoAll, 2⟩ {} =
          .ok (m', (wordResults bareWorld twoArgs echoAll {}).2) ∧
      Layout m' (wordResults bareWorld twoArgs echoAll {}).1.flatten) :=
  (expandArgv_iff bareWorld twoArgs none .unquoted _ echoAll {}
    ⟨rfl, ⟨[], rfl⟩, ⟨[], rfl⟩⟩).mpr (Or.inl (List.cons_ne_nil _ _))

/-- **`echo "$@" x` without positionals reads outside `argv_quoted`.** -/
theorem emptyAt_outside :
    expandArgv bareWorld { env := fun _ => none } none .unquoted
      ⟨[some "echo".toList, some "$@".toList, some "x".toList, none],
        [.unquoted, .double, .unquoted], 3⟩ {} = .error .outside := by
  rfl

end Petrush.Verified.Arguments
