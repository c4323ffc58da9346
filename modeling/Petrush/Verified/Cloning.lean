import Petrush.Mid.Clone

/-!
# A copy of a list is the list

`clone_list` copies field by field, and an array cell by cell.  From a structure that
holds a tree, whatever lies behind the cells that are counted, no access is outside,
and the copy holds the same tree.

## Main results

* `cloneCmd_tree`: a command.
* `cloneList_tree`: the seven kinds, nested to any depth.
* `listTree_listStruct`: every tree is in some structure.
* `cloneList_faithful`: the copy reads as the original.
-/

namespace Petrush.Verified.Cloning

open Petrush.Lib.CText
open Petrush.Lib.Cells
open Petrush.Mid.Ast
open Petrush.Mid.Clone

/-! ## Arrays -/

section Arrays

variable {α β : Type} {f : α → Option β}

/-- Cells that can be read can be copied, and what stands behind the copy is not read. -/
theorem copyCells_of_readCells : ∀ {n : Nat} {cells : List α} {bs : List β},
    readCells f n cells = some bs →
      ∃ copy, copyCells n cells = .ok copy ∧ copy.length = n ∧
        ∀ more, readCells f n (copy ++ more) = some bs := by
  intro n
  induction n with
  | zero =>
      intro cells bs h
      exact ⟨[], rfl, rfl, fun more => h⟩
  | succ n ih =>
      intro cells bs h
      cases cells with
      | nil => contradiction
      | cons a cells =>
          simp only [readCells, Option.bind_eq_some_iff, Option.map_eq_some_iff] at h
          obtain ⟨b, ha, bs', hcells, rfl⟩ := h
          obtain ⟨copy, hcopy, hlen, hread⟩ := ih hcells
          refine ⟨a :: copy, ?_, congrArg (· + 1) hlen, fun more => ?_⟩
          · simp only [copyCells, hcopy, Except.map]
          · simp [readCells, ha, hread more]

/-- An array of exactly the cells that are counted, of which `bs` is read. -/
structure Copied (f : α → Option β) (n : Nat) (bs : List β) (copy : Option (List α)) : Prop where
  cells : (n = 0 ∧ copy = none) ∨ ∃ l, copy = some l ∧ l.length = n
  read_append : ∀ more, readArray f n (copy.map (· ++ more)) = some bs

theorem Copied.read {n : Nat} {bs : List β} {copy : Option (List α)} (h : Copied f n bs copy) :
    readArray f n copy = some bs := by
  have hread := h.read_append []
  simpa using hread

theorem Copied.isSome {n : Nat} {bs : List β} {copy : Option (List α)} (h : Copied f n bs copy)
    (hn : n ≠ 0) : ¬ copy.isNone = true := by
  rcases h.cells with ⟨hzero, _⟩ | ⟨l, hl, _⟩
  · exact absurd hzero hn
  · simp [hl]

/-- An array that can be read can be copied. -/
theorem copyArray_of_readArray {n : Nat} {cells : Option (List α)} {bs : List β}
    (h : readArray f n cells = some bs) : ∃ copy, copyArray n cells = .ok copy ∧ Copied f n bs copy := by
  by_cases hn : n = 0
  · subst hn
    exact ⟨none, rfl, Or.inl ⟨rfl, rfl⟩, fun more => h⟩
  · simp only [readArray, if_neg hn, Option.bind_eq_some_iff] at h
    obtain ⟨l, rfl, hl⟩ := h
    obtain ⟨copy, hcopy, hlen, hread⟩ := copyCells_of_readCells hl
    refine ⟨some copy, ?_, Or.inr ⟨copy, rfl, hlen⟩, fun more => ?_⟩
    · simp only [copyArray, if_neg hn, deref, Except.bind, hcopy, Except.map]
    · simpa [readArray, hn] using hread more

end Arrays

/-! ## Words and commands -/

/-- `argv` and `argv_quoted` are copied together; a `NULL` may stand behind the copy. -/
theorem copyWords {argc : Nat} {argv : Option (List (Option Text))} {quoted : Option (List Int)}
    {ws : List Word} (h : readWords argc argv quoted = some ws) :
    ∃ argv' quoted', copyArray argc argv = .ok argv' ∧
      copyIfSet argc quoted = .ok quoted' ∧
      ((argc = 0 ∧ argv' = none) ∨ ∃ l, argv' = some l ∧ l.length = argc) ∧
      ∀ more, readWords argc (argv'.map (· ++ more)) quoted' = some ws := by
  simp only [readWords, Option.bind_eq_some_iff] at h
  obtain ⟨texts, htexts, h⟩ := h
  obtain ⟨argv', hargv, hcopied⟩ := copyArray_of_readArray htexts
  by_cases hq : quoted.isNone = true
  · refine ⟨argv', none, hargv, by rw [copyIfSet, if_pos hq], hcopied.cells, fun more => ?_⟩
    rw [if_pos hq] at h
    simpa [readWords, hcopied.read_append more] using h
  · rw [if_neg hq, Option.map_eq_some_iff] at h
    obtain ⟨flags, hflags, rfl⟩ := h
    obtain ⟨quoted', hquoted, hcopied'⟩ := copyArray_of_readArray hflags
    refine ⟨argv', quoted', hargv, by rw [copyIfSet, if_neg hq, hquoted], hcopied.cells, fun more => ?_⟩
    by_cases hargc : argc = 0
    · subst hargc
      have hnone : texts = [] := by simpa [readArray] using htexts.symm
      have hread := hcopied.read_append more
      rw [hnone] at hread ⊢
      simp only [readWords, hread, Option.bind_some, List.map_nil, List.zipWith_nil_left]
      split_ifs
      · rfl
      · simp [readArray]
    · have hsome := hcopied'.isSome hargc
      simp only [readWords, hcopied.read_append more, Option.bind_some, if_neg hsome, hcopied'.read,
        Option.map_some]

/-- The delimiters of the documents that are passed over, with their number. -/
theorem copySkips {n : Nat} {delims : Option (List (Option Text))} {skips : List Text}
    (h : readArray id n delims = some skips) :
    ∃ delims', copyIfSet n delims = .ok delims' ∧
      readArray id (if delims'.isNone then 0 else n) delims' = some skips := by
  obtain ⟨copy, hcopy, hcopied⟩ := copyArray_of_readArray h
  by_cases hn : n = 0
  · subst hn
    have hnone : skips = [] := by simpa [readArray] using h.symm
    refine ⟨none, ?_, by simp [readArray, hnone]⟩
    rw [copyIfSet]
    split <;> rfl
  · by_cases hd : delims.isNone = true
    · simp [Option.isNone_iff_eq_none.mp hd, readArray, hn] at h
    · refine ⟨copy, by rw [copyIfSet, if_neg hd, hcopy], ?_⟩
      rw [if_neg (hcopied.isSome hn)]
      exact hcopied.read

/-- **A command and its copy are the same command.** -/
theorem cloneCmd_tree {src : PetrushCmd} {cmd : Cmd} (h : cmdTree src = some cmd) :
    ∃ dst, cloneCmd src = .ok dst ∧ cmdTree dst = some cmd := by
  simp only [cmdTree] at h
  split at h
  · simp only [Option.bind_eq_some_iff, Option.map_eq_some_iff] at h
    obtain ⟨ws, hws, skips, hskips, rfl⟩ := h
    obtain ⟨argv, quoted, hargv, hquoted, hcells, hread⟩ := copyWords hws
    obtain ⟨delims, hdelims, hreadSkips⟩ := copySkips hskips
    have hend : terminated src.argc (argv.map (· ++ [none])) = true := by
      rcases hcells with ⟨hzero, rfl⟩ | ⟨l, rfl, hlen⟩
      · simp [terminated, hzero]
      · simp [terminated, ← hlen]
    have hcopy : cloneCmd src = .ok
        { src with
          argv := argv.map (· ++ [none]), argvQuoted := quoted, hereSkipDelims := delims
          hereSkipN := if delims.isNone then 0 else src.hereSkipN } := by
      simp only [cloneCmd, hargv, hquoted, hdelims]
      rfl
    refine ⟨_, hcopy, ?_⟩
    simp only [cmdTree, hend, if_true, hread, hreadSkips, Option.bind_some, Option.map_some]
  · contradiction

/-! ## Pipelines -/

theorem cloneCmds_tree : ∀ {n : Nat} {cells : List PetrushCmd} {cmds : List Cmd},
    readCells cmdTree n cells = some cmds →
      ∃ copy, cloneCmds n cells = .ok copy ∧ readCells cmdTree n copy = some cmds := by
  intro n
  induction n with
  | zero =>
      intro cells cmds h
      exact ⟨[], rfl, h⟩
  | succ n ih =>
      intro cells cmds h
      cases cells with
      | nil => contradiction
      | cons src cells =>
          simp only [readCells, Option.bind_eq_some_iff, Option.map_eq_some_iff] at h
          obtain ⟨cmd, hcmd, cmds', hcells, rfl⟩ := h
          obtain ⟨dst, hdst, htree⟩ := cloneCmd_tree hcmd
          obtain ⟨copy, hcopy, hread⟩ := ih hcells
          refine ⟨dst :: copy, ?_, ?_⟩
          · simp only [cloneCmds, hdst, hcopy]
            rfl
          · simp only [readCells, htree, hread, Option.bind_some, Option.map_some]

theorem clonePipeline_tree {src : PetrushPipeline} {pl : Pipeline} (h : pipelineTree src = some pl) :
    ∃ dst, clonePipeline src = .ok dst ∧ pipelineTree dst = some pl := by
  by_cases hn : src.ncmds = 0
  · refine ⟨{}, by rw [clonePipeline, if_pos hn], ?_⟩
    simpa [pipelineTree, readArray, hn] using h
  · simp only [pipelineTree, readArray, if_neg hn, Option.map_eq_some_iff,
      Option.bind_eq_some_iff] at h
    obtain ⟨cmds, ⟨cells, hcells, hread⟩, rfl⟩ := h
    obtain ⟨copy, hcopy, htree⟩ := cloneCmds_tree hread
    refine ⟨⟨some copy, src.ncmds⟩, ?_, ?_⟩
    · simp only [clonePipeline, if_neg hn, hcells, deref]
      show (cloneCmds src.ncmds cells).bind _ = _
      rw [hcopy]
      rfl
    · simp [pipelineTree, readArray, hn, htree]

theorem cloneDbracket_tree {src : PetrushDbracket} {ws : List Word} (h : dbracketTree src = some ws) :
    ∃ dst, cloneDbracket src = .ok dst ∧ dbracketTree dst = some ws := by
  obtain ⟨argv, quoted, hargv, hquoted, -, hread⟩ := copyWords h
  have hread := hread []
  simp only [List.append_nil, Option.map_id'] at hread
  by_cases hn : src.argc = 0
  · refine ⟨{}, by rw [cloneDbracket, if_pos hn], ?_⟩
    simp only [dbracketTree, readWords, hn, readArray, if_true, Option.bind_some, List.map_nil,
      List.zipWith_nil_left, Option.map_some] at h
    split at h
    · exact h
    · exact h
  · refine ⟨⟨argv, src.argc, quoted⟩, ?_, hread⟩
    simp only [cloneDbracket, if_neg hn, hargv, hquoted]
    rfl

/-! ## Lists

The induction is on the structure; a copy of an array has its items in turn. -/

mutual

/-- **A list and its copy are the same list.** -/
theorem cloneList_tree : ∀ (src : PetrushList) {list : PList}, listTree src = some list →
    ∃ dst, cloneList src = .ok dst ∧ listTree dst = some list
  | ⟨items, 0⟩, list, h => ⟨.zero, rfl, h⟩
  | ⟨none, n + 1⟩, list, h => by simp [listTree] at h
  | ⟨some cells, n + 1⟩, list, h => by
      obtain ⟨copy, hcopy, htree⟩ := cloneItems_tree (n + 1) cells h
      exact ⟨⟨some copy, n + 1⟩, by rw [cloneList, hcopy]; rfl, htree⟩

theorem cloneItems_tree : ∀ (n : Nat) (cells : List PetrushListItem) {items : List Item},
    itemsTree n cells = some items →
      ∃ copy, cloneItems n cells = .ok copy ∧ itemsTree n copy = some items
  | 0, cells, items, h => ⟨[], by rw [cloneItems], by simpa [itemsTree] using h⟩
  | n + 1, [], items, h => by simp [itemsTree] at h
  | n + 1, src :: cells, items, h => by
      simp only [itemsTree, Option.bind_eq_some_iff, Option.map_eq_some_iff] at h
      obtain ⟨it, hit, items', hitems, rfl⟩ := h
      obtain ⟨dst, hdst, htree⟩ := cloneItem_tree src hit
      obtain ⟨copy, hcopy, htrees⟩ := cloneItems_tree n cells hitems
      refine ⟨dst :: copy, ?_, ?_⟩
      · rw [cloneItems, hdst, hcopy]
        rfl
      · simp only [itemsTree, htree, htrees, Option.bind_some, Option.map_some]

theorem cloneItem_tree : ∀ (src : PetrushListItem) {it : Item}, itemTree src = some it →
    ∃ dst, cloneItem src = .ok dst ∧ itemTree dst = some it
  | ⟨.ifc, pl, ifc, wh, fr, fn, cs, db, cond, background⟩, it, h => by
      simp only [itemTree, Option.map_eq_some_iff] at h
      obtain ⟨arms, hread, rfl⟩ := h
      obtain ⟨dst, hdst, htree⟩ := cloneIf_tree ifc hread
      refine ⟨{ PetrushListItem.zero .ifc cond background with ifc := dst }, ?_, ?_⟩
      · rw [cloneItem, hdst]
        rfl
      · simp only [PetrushListItem.zero, itemTree, htree, Option.map_some]
  | ⟨.wh, pl, ifc, wh, fr, fn, cs, db, cond, background⟩, it, h => by
      simp only [itemTree, Option.map_eq_some_iff] at h
      obtain ⟨k, hread, rfl⟩ := h
      obtain ⟨dst, hdst, htree⟩ := cloneWhile_tree wh hread
      refine ⟨{ PetrushListItem.zero .wh cond background with wh := dst }, ?_, ?_⟩
      · rw [cloneItem, hdst]
        rfl
      · simp only [PetrushListItem.zero, itemTree, htree, Option.map_some]
  | ⟨.fr, pl, ifc, wh, fr, fn, cs, db, cond, background⟩, it, h => by
      simp only [itemTree, Option.map_eq_some_iff] at h
      obtain ⟨k, hread, rfl⟩ := h
      obtain ⟨dst, hdst, htree⟩ := cloneFor_tree fr hread
      refine ⟨{ PetrushListItem.zero .fr cond background with fr := dst }, ?_, ?_⟩
      · rw [cloneItem, hdst]
        rfl
      · simp only [PetrushListItem.zero, itemTree, htree, Option.map_some]
  | ⟨.fn, pl, ifc, wh, fr, fn, cs, db, cond, background⟩, it, h => by
      simp only [itemTree, Option.map_eq_some_iff] at h
      obtain ⟨k, hread, rfl⟩ := h
      obtain ⟨dst, hdst, htree⟩ := cloneFn_tree fn hread
      refine ⟨{ PetrushListItem.zero .fn cond background with fn := dst }, ?_, ?_⟩
      · rw [cloneItem, hdst]
        rfl
      · simp only [PetrushListItem.zero, itemTree, htree, Option.map_some]
  | ⟨.cs, pl, ifc, wh, fr, fn, cs, db, cond, background⟩, it, h => by
      simp only [itemTree, Option.map_eq_some_iff] at h
      obtain ⟨k, hread, rfl⟩ := h
      obtain ⟨dst, hdst, htree⟩ := cloneCase_tree cs hread
      refine ⟨{ PetrushListItem.zero .cs cond background with cs := dst }, ?_, ?_⟩
      · rw [cloneItem, hdst]
        rfl
      · simp only [PetrushListItem.zero, itemTree, htree, Option.map_some]
  | ⟨.db, pl, ifc, wh, fr, fn, cs, db, cond, background⟩, it, h => by
      simp only [itemTree, Option.map_eq_some_iff] at h
      obtain ⟨ws, hread, rfl⟩ := h
      obtain ⟨dst, hdst, htree⟩ := cloneDbracket_tree hread
      refine ⟨{ PetrushListItem.zero .db cond background with db := dst }, ?_, ?_⟩
      · rw [cloneItem, hdst]
        rfl
      · simp only [PetrushListItem.zero, itemTree, htree, Option.map_some]
  | ⟨.pipeline, pl, ifc, wh, fr, fn, cs, db, cond, background⟩, it, h => by
      simp only [itemTree, Option.map_eq_some_iff] at h
      obtain ⟨pl', hread, rfl⟩ := h
      obtain ⟨dst, hdst, htree⟩ := clonePipeline_tree hread
      refine ⟨{ PetrushListItem.zero .pipeline cond background with pl := dst }, ?_, ?_⟩
      · rw [cloneItem, hdst]
        rfl
      · simp only [PetrushListItem.zero, itemTree, htree, Option.map_some]

theorem cloneIf_tree : ∀ (src : PetrushIf) {arms : List IfArm}, ifTree src = some arms →
    ∃ dst, cloneIf src = .ok dst ∧ ifTree dst = some arms
  | ⟨cells, 0⟩, arms, h => ⟨⟨none, 0⟩, rfl, h⟩
  | ⟨none, n + 1⟩, arms, h => by simp [ifTree] at h
  | ⟨some cells, n + 1⟩, arms, h => by
      obtain ⟨copy, hcopy, htree⟩ := cloneIfArms_tree (n + 1) cells h
      exact ⟨⟨some copy, n + 1⟩, by rw [cloneIf, hcopy]; rfl, htree⟩

theorem cloneIfArms_tree : ∀ (n : Nat) (cells : List PetrushIfArm) {arms : List IfArm},
    ifArmsTree n cells = some arms →
      ∃ copy, cloneIfArms n cells = .ok copy ∧ ifArmsTree n copy = some arms
  | 0, cells, arms, h => ⟨[], by rw [cloneIfArms], by simpa [ifArmsTree] using h⟩
  | n + 1, [], arms, h => by simp [ifArmsTree] at h
  | n + 1, ⟨cond, body, isElse⟩ :: cells, arms, h => by
      simp only [ifArmsTree, Option.bind_eq_some_iff, Option.map_eq_some_iff] at h
      obtain ⟨c, hc, b, hb, arms', harms, rfl⟩ := h
      obtain ⟨cond', hcond, hcondTree⟩ := cloneList_tree cond hc
      obtain ⟨body', hbody, hbodyTree⟩ := cloneList_tree body hb
      obtain ⟨copy, hcopy, htrees⟩ := cloneIfArms_tree n cells harms
      refine ⟨⟨cond', body', isElse⟩ :: copy, ?_, ?_⟩
      · rw [cloneIfArms, hcond, hbody, hcopy]
        rfl
      · simp only [ifArmsTree, hcondTree, hbodyTree, htrees, Option.bind_some, Option.map_some]

theorem cloneWhile_tree : ∀ (src : PetrushWhile) {k : ItemKind}, whileTree src = some k →
    ∃ dst, cloneWhile src = .ok dst ∧ whileTree dst = some k
  | ⟨cond, body⟩, k, h => by
      simp only [whileTree, Option.bind_eq_some_iff, Option.map_eq_some_iff] at h
      obtain ⟨c, hc, b, hb, rfl⟩ := h
      obtain ⟨cond', hcond, hcondTree⟩ := cloneList_tree cond hc
      obtain ⟨body', hbody, hbodyTree⟩ := cloneList_tree body hb
      refine ⟨⟨cond', body'⟩, ?_, ?_⟩
      · rw [cloneWhile, hcond, hbody]
        rfl
      · simp only [whileTree, hcondTree, hbodyTree, Option.bind_some, Option.map_some]

theorem cloneFor_tree : ∀ (src : PetrushFor) {k : ItemKind}, forTree src = some k →
    ∃ dst, cloneFor src = .ok dst ∧ forTree dst = some k
  | ⟨name, words, nwords, body⟩, k, h => by
      simp only [forTree, Option.bind_eq_some_iff, Option.map_eq_some_iff] at h
      obtain ⟨name', rfl, ws, hws, b, hb, rfl⟩ := h
      obtain ⟨words', hwords, hcopied⟩ := copyArray_of_readArray hws
      obtain ⟨body', hbody, hbodyTree⟩ := cloneList_tree body hb
      refine ⟨⟨some name', words', nwords, body'⟩, ?_, ?_⟩
      · rw [cloneFor, hwords, hbody]
        rfl
      · simp only [forTree, hcopied.read, hbodyTree, Option.bind_some, Option.map_some]

theorem cloneFn_tree : ∀ (src : PetrushFn) {k : ItemKind}, fnTree src = some k →
    ∃ dst, cloneFn src = .ok dst ∧ fnTree dst = some k
  | ⟨name, body⟩, k, h => by
      simp only [fnTree, Option.bind_eq_some_iff, Option.map_eq_some_iff] at h
      obtain ⟨name', rfl, b, hb, rfl⟩ := h
      obtain ⟨body', hbody, hbodyTree⟩ := cloneList_tree body hb
      refine ⟨⟨some name', body'⟩, ?_, ?_⟩
      · rw [cloneFn, hbody]
        rfl
      · simp only [fnTree, hbodyTree, Option.bind_some, Option.map_some]

theorem cloneCase_tree : ∀ (src : PetrushCase) {k : ItemKind}, caseTree src = some k →
    ∃ dst, cloneCase src = .ok dst ∧ caseTree dst = some k
  | ⟨word, cells, 0⟩, k, h => ⟨⟨word, none, 0⟩, rfl, h⟩
  | ⟨word, none, n + 1⟩, k, h => by simp [caseTree] at h
  | ⟨word, some cells, n + 1⟩, k, h => by
      simp only [caseTree, Option.bind_eq_some_iff, Option.map_eq_some_iff] at h
      obtain ⟨word', rfl, arms, harms, rfl⟩ := h
      obtain ⟨copy, hcopy, htree⟩ := cloneCaseArms_tree (n + 1) cells harms
      refine ⟨⟨some word', some copy, n + 1⟩, by rw [cloneCase, hcopy]; rfl, ?_⟩
      simp only [caseTree, htree, Option.bind_some, Option.map_some]

theorem cloneCaseArms_tree : ∀ (n : Nat) (cells : List PetrushCaseArm) {arms : List CaseArm},
    caseArmsTree n cells = some arms →
      ∃ copy, cloneCaseArms n cells = .ok copy ∧ caseArmsTree n copy = some arms
  | 0, cells, arms, h => ⟨[], by rw [cloneCaseArms], by simpa [caseArmsTree] using h⟩
  | n + 1, [], arms, h => by simp [caseArmsTree] at h
  | n + 1, ⟨patterns, npatterns, body⟩ :: cells, arms, h => by
      simp only [caseArmsTree, Option.bind_eq_some_iff, Option.map_eq_some_iff] at h
      obtain ⟨ps, hps, b, hb, arms', harms, rfl⟩ := h
      obtain ⟨patterns', hpatterns, hcopied⟩ := copyArray_of_readArray hps
      obtain ⟨body', hbody, hbodyTree⟩ := cloneList_tree body hb
      obtain ⟨copy, hcopy, htrees⟩ := cloneCaseArms_tree n cells harms
      refine ⟨⟨patterns', npatterns, body'⟩ :: copy, ?_, ?_⟩
      · rw [cloneCaseArms, hpatterns, hbody, hcopy]
        rfl
      · simp only [caseArmsTree, hcopied.read, hbodyTree, htrees, Option.bind_some,
          Option.map_some]

end

/-! ## Every tree is in some structure -/

/-- The entry of `argv_quoted`. -/
def flagOf : Quoting → Int
  | .unquoted => 0
  | .single => 1
  | .double => 2

/-- The command, with a `NULL` behind its words. -/
def cmdStruct (cmd : Cmd) : PetrushCmd where
  argv := some (cmd.argv.map (fun w => some w.text) ++ [none])
  argc := cmd.argv.length
  argvQuoted := some (cmd.argv.map fun w => flagOf w.quoted)
  redirIn := cmd.redirIn
  redirOut := cmd.redirOut
  redirAppend := if cmd.redirAppend then 1 else 0
  redirErr := cmd.redirErr
  redirErrAppend := if cmd.redirErrAppend then 1 else 0
  redirErrToOut := if cmd.redirErrToOut then 1 else 0
  hereDelim := cmd.hereDelim
  hereBody := cmd.hereBody
  hereQuoted := if cmd.hereQuoted then 1 else 0
  hereStrip := if cmd.hereStrip then 1 else 0
  hereSkipDelims := some (cmd.hereSkipDelims.map some)
  hereSkipN := cmd.hereSkipDelims.length
  hereFeedI := cmd.hereFeedI

def pipelineStruct (pl : Pipeline) : PetrushPipeline := ⟨some (pl.cmds.map cmdStruct), pl.cmds.length⟩

def dbracketStruct (argv : List Word) : PetrushDbracket where
  argv := some (argv.map fun w => some w.text)
  argc := argv.length
  argvQuoted := some (argv.map fun w => flagOf w.quoted)

/-- A list of the items. -/
def ofItems (items : List PetrushListItem) : PetrushList := ⟨some items, items.length⟩

mutual

/-- The payload, in a structure whose other payloads are zero. -/
def kindStruct (di : PetrushListItem) : ItemKind → PetrushListItem
  | .pipeline pl => { di with kind := .pipeline, pl := pipelineStruct pl }
  | .ifc arms =>
      { di with kind := .ifc, ifc := ⟨some (ifArmsStruct arms), (ifArmsStruct arms).length⟩ }
  | .wh cond body =>
      { di with kind := .wh, wh := ⟨ofItems (itemsStruct cond), ofItems (itemsStruct body)⟩ }
  | .fr name words body =>
      { di with
        kind := .fr
        fr := ⟨some name, some (words.map some), words.length, ofItems (itemsStruct body)⟩ }
  | .fn name body => { di with kind := .fn, fn := ⟨some name, ofItems (itemsStruct body)⟩ }
  | .cs word arms =>
      { di with
        kind := .cs, cs := ⟨some word, some (caseArmsStruct arms), (caseArmsStruct arms).length⟩ }
  | .db argv => { di with kind := .db, db := dbracketStruct argv }

def itemStruct : Item → PetrushListItem
  | ⟨kind, cond, background⟩ =>
      kindStruct (.zero .pipeline cond (if background then 1 else 0)) kind

def itemsStruct : List Item → List PetrushListItem
  | [] => []
  | it :: items => itemStruct it :: itemsStruct items

def ifArmsStruct : List IfArm → List PetrushIfArm
  | [] => []
  | ⟨cond, body, isElse⟩ :: arms =>
      ⟨ofItems (itemsStruct cond), ofItems (itemsStruct body), if isElse then 1 else 0⟩ ::
        ifArmsStruct arms

def caseArmsStruct : List CaseArm → List PetrushCaseArm
  | [] => []
  | ⟨patterns, body⟩ :: arms =>
      ⟨some (patterns.map some), patterns.length, ofItems (itemsStruct body)⟩ ::
        caseArmsStruct arms

end

/-- A structure for a list. -/
def listStruct (list : PList) : PetrushList := ofItems (itemsStruct list)

theorem readCells_map {α β γ : Type} {f : α → Option β} {g : γ → α} {h : γ → β} (more : List α)
    {l : List γ} (hfg : ∀ c ∈ l, f (g c) = some (h c)) :
    readCells f l.length (l.map g ++ more) = some (l.map h) := by
  induction l with
  | nil => rfl
  | cons c l ih =>
      have htail := ih fun x hx => hfg x (List.mem_cons_of_mem _ hx)
      have hhead := hfg c (by simp)
      simp only [List.length_cons, List.map_cons, List.cons_append, readCells, hhead, htail,
        Option.bind_some, Option.map_some]

theorem readArray_map {α β γ : Type} {f : α → Option β} {g : γ → α} {h : γ → β} (more : List α)
    {l : List γ} (hfg : ∀ c ∈ l, f (g c) = some (h c)) :
    readArray f l.length (some (l.map g ++ more)) = some (l.map h) := by
  rw [readArray]
  split
  · next hlen => simp [List.length_eq_zero_iff.mp hlen]
  · exact readCells_map more hfg

theorem quotingOf_flagOf (q : Quoting) : quotingOf (flagOf q) = some q := by
  cases q <;> rfl

theorem readWords_struct (ws : List Word) (more : List (Option Text)) :
    readWords ws.length (some (ws.map (fun w => some w.text) ++ more))
      (some (ws.map fun w => flagOf w.quoted)) = some ws := by
  have htexts := readArray_map (f := id) (g := fun w : Word => some w.text) (h := Word.text) more
    (l := ws) fun _ _ => rfl
  have hflags := readArray_map (f := quotingOf) (g := fun w : Word => flagOf w.quoted)
    (h := Word.quoted) [] (l := ws) fun w _ => quotingOf_flagOf w.quoted
  rw [List.append_nil] at hflags
  simp [readWords, htexts, hflags, List.zipWith_map, List.zipWith_self]

theorem flag_ne_zero (b : Bool) : ((if b = true then (1 : Int) else 0) != 0) = b := by
  cases b <;> rfl

theorem cmdTree_cmdStruct (cmd : Cmd) : cmdTree (cmdStruct cmd) = some cmd := by
  have hwords := readWords_struct cmd.argv [none]
  have hskips := readArray_map (f := id) (g := some) (h := id) [] (l := cmd.hereSkipDelims)
    fun _ _ => rfl
  have hend : terminated cmd.argv.length
      (some (cmd.argv.map (fun w => some w.text) ++ [none])) = true := by
    simp [terminated]
  rw [List.append_nil, List.map_id] at hskips
  simp only [cmdTree, cmdStruct, hend, if_true, hwords, hskips, Option.bind_some, Option.map_some,
    flag_ne_zero]

theorem pipelineTree_struct (pl : Pipeline) : pipelineTree (pipelineStruct pl) = some pl := by
  have hcmds := readArray_map (f := cmdTree) (g := cmdStruct) (h := id) [] (l := pl.cmds)
    fun cmd _ => cmdTree_cmdStruct cmd
  rw [List.append_nil, List.map_id] at hcmds
  simp only [pipelineTree, pipelineStruct, hcmds, Option.map_some]

theorem dbracketTree_struct (ws : List Word) : dbracketTree (dbracketStruct ws) = some ws := by
  have hwords := readWords_struct ws []
  rw [List.append_nil] at hwords
  exact hwords

theorem readTexts_some (ts : List Text) : readArray id ts.length (some (ts.map some)) = some ts := by
  have h := readArray_map (f := id) (g := some) (h := id) [] (l := ts) fun _ _ => rfl
  rwa [List.append_nil, List.map_id] at h

/-- The tree of a list of items is theirs. -/
theorem listTree_ofItems {cells : List PetrushListItem} {items : List Item}
    (h : itemsTree cells.length cells = some items) : listTree (ofItems cells) = some items := by
  cases cells with
  | nil => exact h
  | cons it cells => exact h

theorem ifTree_of {cells : List PetrushIfArm} {arms : List IfArm}
    (h : ifArmsTree cells.length cells = some arms) :
    ifTree ⟨some cells, cells.length⟩ = some arms := by
  cases cells with
  | nil => exact h
  | cons arm cells => exact h

theorem caseTree_of {cells : List PetrushCaseArm} {arms : List CaseArm} (word : Text)
    (h : caseArmsTree cells.length cells = some arms) :
    caseTree ⟨some word, some cells, cells.length⟩ = some (.cs word arms) := by
  cases cells with
  | nil =>
      obtain rfl := Option.some.inj h
      rfl
  | cons arm cells =>
      simp only [List.length_cons] at h
      simp only [List.length_cons, caseTree, h, Option.bind_some, Option.map_some]

mutual

theorem kindTree_struct : ∀ (kind : ItemKind) (cond : RunCond) (background : Bool),
    itemTree (itemStruct ⟨kind, cond, background⟩) = some ⟨kind, cond, background⟩
  | .pipeline pl, cond, background => by
      simp only [itemStruct, kindStruct, PetrushListItem.zero, itemTree, pipelineTree_struct,
        Option.map_some, flag_ne_zero]
  | .ifc arms, cond, background => by
      simp only [itemStruct, kindStruct, PetrushListItem.zero, itemTree,
        ifTree_of (ifArmsTree_struct arms), Option.map_some, flag_ne_zero]
  | .wh c body, cond, background => by
      simp only [itemStruct, kindStruct, PetrushListItem.zero, itemTree, whileTree,
        listTree_ofItems (itemsTree_struct c), listTree_ofItems (itemsTree_struct body),
        Option.bind_some, Option.map_some, flag_ne_zero]
  | .fr name words body, cond, background => by
      simp only [itemStruct, kindStruct, PetrushListItem.zero, itemTree, forTree, readTexts_some,
        listTree_ofItems (itemsTree_struct body), Option.bind_some, Option.map_some, flag_ne_zero]
  | .fn name body, cond, background => by
      simp only [itemStruct, kindStruct, PetrushListItem.zero, itemTree, fnTree,
        listTree_ofItems (itemsTree_struct body), Option.bind_some, Option.map_some, flag_ne_zero]
  | .cs word arms, cond, background => by
      simp only [itemStruct, kindStruct, PetrushListItem.zero, itemTree,
        caseTree_of word (caseArmsTree_struct arms), Option.map_some, flag_ne_zero]
  | .db argv, cond, background => by
      simp only [itemStruct, kindStruct, PetrushListItem.zero, itemTree, dbracketTree_struct,
        Option.map_some, flag_ne_zero]

theorem itemsTree_struct : ∀ items : List Item,
    itemsTree (itemsStruct items).length (itemsStruct items) = some items
  | [] => rfl
  | ⟨kind, cond, background⟩ :: items => by
      simp only [itemsStruct, List.length_cons, itemsTree, kindTree_struct kind,
        itemsTree_struct items, Option.bind_some, Option.map_some]

theorem ifArmsTree_struct : ∀ arms : List IfArm,
    ifArmsTree (ifArmsStruct arms).length (ifArmsStruct arms) = some arms
  | [] => rfl
  | ⟨cond, body, isElse⟩ :: arms => by
      simp only [ifArmsStruct, List.length_cons, ifArmsTree, listTree_ofItems (itemsTree_struct cond),
        listTree_ofItems (itemsTree_struct body), ifArmsTree_struct arms, Option.bind_some,
        Option.map_some, flag_ne_zero]

theorem caseArmsTree_struct : ∀ arms : List CaseArm,
    caseArmsTree (caseArmsStruct arms).length (caseArmsStruct arms) = some arms
  | [] => rfl
  | ⟨patterns, body⟩ :: arms => by
      simp only [caseArmsStruct, List.length_cons, caseArmsTree, readTexts_some,
        listTree_ofItems (itemsTree_struct body), caseArmsTree_struct arms, Option.bind_some,
        Option.map_some]

end

/-- **Every tree is in some structure.** -/
theorem listTree_listStruct (list : PList) : listTree (listStruct list) = some list :=
  listTree_ofItems (itemsTree_struct list)

/-- **`clone_list` is faithful**: the copy of a structure that holds a list, however the
parser and the here-documents have filled it, is made without an access outside, and
what is read from the copy is what is read from the original.  So the dispatcher may run
`body` itself where the code runs a copy of it. -/
theorem cloneList_faithful (src : PetrushList) (list : PList) (h : listTree src = some list) :
    ∃ dst, cloneList src = .ok dst ∧ listTree dst = listTree src := by
  obtain ⟨dst, hdst, htree⟩ := cloneList_tree src h
  exact ⟨dst, hdst, htree.trans h.symm⟩

/-- The list of `for i in a b; do cat <<E <<F > f; done &`, with both documents read. -/
def filled : PList :=
  [⟨.fr "i".toList ["a".toList, "b".toList]
      [⟨.pipeline ⟨[{ argv := [⟨"cat".toList, .unquoted⟩], redirOut := some "f".toList
                      hereDelim := some "F".toList, hereBody := some "x\n".toList
                      hereSkipDelims := ["E".toList], hereFeedI := 2 }]⟩, .always, false⟩],
    .always, true⟩]

theorem cloneList_faithful_filled :
    ∃ dst, cloneList (listStruct filled) = .ok dst ∧ listTree dst = listTree (listStruct filled) :=
  cloneList_faithful (listStruct filled) filled (listTree_listStruct filled)

end Petrush.Verified.Cloning
